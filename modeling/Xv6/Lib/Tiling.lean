import Mathlib

/-! Regions of memory that are cut into blocks, free ones and ones in use, without gaps. -/

namespace Tiling

structure Tile where
  free : Bool
  size : Nat

def span (ts : List Tile) : Nat := (ts.map Tile.size).sum

def spots : Nat → List Tile → List (Nat × Tile)
  | _, [] => []
  | a, t :: ts => (a, t) :: spots (a + t.size) ts

def holes (a : Nat) (ts : List Tile) : List Nat := ((spots a ts).filter fun x => x.2.free).map Prod.fst

def rooms (a : Nat) (ts : List Tile) : List (Nat × Nat) := ((spots a ts).filter fun x => !x.2.free).map fun x => (x.1, x.2.size)

/-- No free tile is next to another one. -/
def Apart (ts : List Tile) : Prop := ts.IsChain fun s t => ¬(s.free = true ∧ t.free = true)

variable {a x : Nat} {t : Tile} {ts us : List Tile}

@[simp] theorem span_nil : span [] = 0 := rfl

@[simp] theorem span_cons : span (t :: ts) = t.size + span ts := by
  rw [span, List.map_cons, List.sum_cons]
  rfl

@[simp] theorem span_append : span (ts ++ us) = span ts + span us := by
  rw [span, List.map_append, List.sum_append]
  rfl

theorem spots_append : spots a (ts ++ us) = spots a ts ++ spots (a + span ts) us := by
  induction ts generalizing a with
  | nil => rfl
  | cons t ts ih => rw [List.cons_append, spots, ih, spots, List.cons_append, span_cons, Nat.add_assoc]

theorem holes_append : holes a (ts ++ us) = holes a ts ++ holes (a + span ts) us := by
  rw [holes, spots_append, List.filter_append, List.map_append]
  rfl

theorem rooms_append : rooms a (ts ++ us) = rooms a ts ++ rooms (a + span ts) us := by
  rw [rooms, spots_append, List.filter_append, List.map_append]
  rfl

@[simp] theorem holes_nil : holes a [] = [] := rfl

@[simp] theorem rooms_nil : rooms a [] = [] := rfl

@[simp] theorem holes_cons_free {n : Nat} : holes a (⟨true, n⟩ :: ts) = a :: holes (a + n) ts := rfl

@[simp] theorem holes_cons_used {n : Nat} : holes a (⟨false, n⟩ :: ts) = holes (a + n) ts := rfl

@[simp] theorem rooms_cons_free {n : Nat} : rooms a (⟨true, n⟩ :: ts) = rooms (a + n) ts := rfl

@[simp] theorem rooms_cons_used {n : Nat} : rooms a (⟨false, n⟩ :: ts) = (a, n) :: rooms (a + n) ts := rfl

theorem mem_holes : x ∈ holes a ts ↔ ∃ n, (x, ⟨true, n⟩) ∈ spots a ts := by
  constructor
  · intro h
    obtain ⟨⟨y, free, n⟩, hy, rfl⟩ := List.mem_map.mp h
    obtain ⟨hmem, hfree⟩ := List.mem_filter.mp hy
    obtain rfl : free = true := hfree
    exact ⟨n, hmem⟩
  · rintro ⟨n, h⟩
    exact List.mem_map.mpr ⟨_, List.mem_filter.mpr ⟨h, rfl⟩, rfl⟩

theorem mem_rooms {n : Nat} : (x, n) ∈ rooms a ts ↔ (x, ⟨false, n⟩) ∈ spots a ts := by
  constructor
  · intro h
    obtain ⟨⟨y, free, m⟩, hy, heq⟩ := List.mem_map.mp h
    obtain ⟨hmem, hfree⟩ := List.mem_filter.mp hy
    cases heq
    cases free with
    | false => exact hmem
    | true => cases hfree
  · intro h
    exact List.mem_map.mpr ⟨_, List.mem_filter.mpr ⟨h, rfl⟩, rfl⟩

theorem mem_spots : (x, t) ∈ spots a ts ↔ ∃ us vs, ts = us ++ t :: vs ∧ x = a + span us := by
  constructor
  · intro h
    induction ts generalizing a with
    | nil => cases h
    | cons u ts ih =>
      rcases List.mem_cons.mp h with h | h
      · cases h
        exact ⟨[], ts, rfl, rfl⟩
      · obtain ⟨us, vs, rfl, rfl⟩ := ih h
        exact ⟨u :: us, vs, rfl, by rw [span_cons, Nat.add_assoc]⟩
  · rintro ⟨us, vs, rfl, rfl⟩
    rw [spots_append]
    exact List.mem_append_right _ List.mem_cons_self

theorem spot_bounds (h : (x, t) ∈ spots a ts) : a ≤ x ∧ x + t.size ≤ a + span ts := by
  obtain ⟨us, vs, rfl, rfl⟩ := mem_spots.mp h
  rw [span_append, span_cons]
  omega

theorem hole_bounds (hpos : ∀ t ∈ ts, 0 < t.size) (h : x ∈ holes a ts) : a ≤ x ∧ x < a + span ts := by
  obtain ⟨n, hn⟩ := mem_holes.mp h
  obtain ⟨us, vs, rfl, rfl⟩ := mem_spots.mp hn
  have hn : 0 < n := hpos ⟨true, n⟩ (by simp)
  rw [span_append, span_cons]
  exact ⟨Nat.le_add_right .., by dsimp only; omega⟩

theorem spots_pairwise : (spots a ts).Pairwise fun s t => s.1 + s.2.size ≤ t.1 := by
  induction ts generalizing a with
  | nil => exact .nil
  | cons t ts ih => exact .cons (fun x hx => (spot_bounds hx).1) ih

theorem spot_ne_inside {y : Nat} {u : Tile} (hu : (y, u) ∈ spots a ts) (ht : (x, t) ∈ spots a ts) {z : Nat} (hz : y < z)
    (hz' : z < y + u.size) : x ≠ z := by
  obtain ⟨us, vs, rfl, rfl⟩ := mem_spots.mp hu
  rw [spots_append] at ht
  rcases List.mem_append.mp ht with ht | ht
  · have := (spot_bounds ht).2
    omega
  · rcases List.mem_cons.mp ht with ht | ht
    · cases ht
      exact hz.ne
    · have := (spot_bounds ht).1
      omega

theorem mem_span_iff : a ≤ x ∧ x < a + span ts ↔ ∃ s ∈ spots a ts, s.1 ≤ x ∧ x < s.1 + s.2.size := by
  induction ts generalizing a with
  | nil =>
    rw [span_nil]
    constructor
    · intro h
      omega
    · rintro ⟨s, hs, -⟩
      cases hs
  | cons t ts ih =>
    rw [span_cons, spots, List.exists_mem_cons_iff, ← ih]
    dsimp only
    omega

theorem Apart.spots_pairwise (h : Apart ts) (hpos : ∀ t ∈ ts, 0 < t.size) :
    (spots a ts).Pairwise fun s t => s.2.free = true → t.2.free = true → s.1 + s.2.size < t.1 := by
  induction ts generalizing a with
  | nil => exact .nil
  | cons t ts ih =>
    have hpos' : ∀ u ∈ ts, 0 < u.size := fun u hu => hpos u (List.mem_cons_of_mem t hu)
    obtain ⟨hhead, htail⟩ := List.isChain_cons.mp h
    refine .cons (fun x hx hfree hfree' => ?_) (ih htail hpos')
    cases ts with
    | nil => cases hx
    | cons u ts =>
      rcases List.mem_cons.mp hx with rfl | hx
      · exact absurd ⟨hfree, hfree'⟩ (hhead u rfl)
      · have := (spot_bounds hx).1
        have := hpos' u List.mem_cons_self
        dsimp only
        omega

theorem holes_pairwise (hpos : ∀ t ∈ ts, 0 < t.size) : (holes a ts).Pairwise (· < ·) := by
  refine List.pairwise_map.mpr (List.Pairwise.filter _ ?_)
  refine spots_pairwise.imp_of_mem fun {s t} hs _ hst => ?_
  obtain ⟨us, vs, rfl, -⟩ := mem_spots.mp (show (s.1, s.2) ∈ spots a ts from hs)
  have := hpos s.2 (by simp)
  omega

theorem rooms_nodup (hpos : ∀ t ∈ ts, 0 < t.size) : ((rooms a ts).map Prod.fst).Nodup := by
  rw [rooms, List.map_map]
  refine List.pairwise_map.mpr (List.Pairwise.filter _ ?_)
  refine spots_pairwise.imp_of_mem fun {s t} hs _ hst => ?_
  obtain ⟨us, vs, rfl, -⟩ := mem_spots.mp (show (s.1, s.2) ∈ spots a ts from hs)
  have := hpos s.2 (by simp)
  dsimp only [Function.comp]
  omega

/-! ### Sizes kept in memory -/

def Sized (f : Nat → Nat) (a : Nat) (ts : List Tile) : Prop := ∀ x t, (x, t) ∈ spots a ts → f x = t.size

variable {f : Nat → Nat}

theorem sized_nil : Sized f a [] := fun _ _ h => nomatch h

theorem sized_cons : Sized f a (t :: ts) ↔ f a = t.size ∧ Sized f (a + t.size) ts := by
  constructor
  · intro h
    exact ⟨h a t List.mem_cons_self, fun x u hx => h x u (List.mem_cons_of_mem _ hx)⟩
  · rintro ⟨ht, hts⟩ x u hx
    rcases List.mem_cons.mp hx with hx | hx
    · cases hx
      exact ht
    · exact hts x u hx

theorem sized_append : Sized f a (ts ++ us) ↔ Sized f a ts ∧ Sized f (a + span ts) us := by
  simp only [Sized, spots_append, List.mem_append, or_imp, forall_and]

theorem Sized.congr {g : Nat → Nat} (h : Sized f a ts) (hpos : ∀ t ∈ ts, 0 < t.size)
    (heq : ∀ x, a ≤ x → x < a + span ts → g x = f x) : Sized g a ts := by
  intro x t hx
  have hbounds := spot_bounds hx
  obtain ⟨us, vs, rfl, -⟩ := mem_spots.mp hx
  have := hpos t (by simp)
  rw [heq x hbounds.1 (by omega)]
  exact h x t hx

theorem lt_hole (hhead : ∀ t ∈ ts.head?, t.free = false) (hpos : ∀ t ∈ ts, 0 < t.size) (hx : x ∈ holes a ts) : a < x := by
  cases ts with
  | nil => cases hx
  | cons t ts =>
    obtain ⟨free, n⟩ := t
    obtain rfl : free = false := hhead _ rfl
    rw [holes_cons_used] at hx
    have := (hole_bounds (fun t ht => hpos t (List.mem_cons_of_mem _ ht)) hx).1
    have := hpos ⟨false, n⟩ List.mem_cons_self
    dsimp only at this
    omega

theorem hole_end_lt {n : Nat} (hlast : ∀ t ∈ ts.getLast?, t.free = false) (hpos : ∀ t ∈ ts, 0 < t.size)
    (hx : (x, ⟨true, n⟩) ∈ spots a ts) : x + n < a + span ts := by
  obtain ⟨us, vs, rfl, rfl⟩ := mem_spots.mp hx
  rcases List.eq_nil_or_concat' vs with rfl | ⟨vs, v, rfl⟩
  · have := hlast ⟨true, n⟩ (by simp)
    cases this
  · have := hpos v (by simp)
    simp only [span_append, span_cons]
    omega

/-! ### A tile is freed -/

/-- The tile of size `n` in front of `B` takes in a free one that follows. -/
inductive JoinsUpper (n : Nat) : List Tile → Nat → List Tile → Prop
  | apart (B : List Tile) (h : ∀ t ∈ B.head?, t.free = false) : JoinsUpper n B n B
  | joined (m : Nat) (B : List Tile) : JoinsUpper n (⟨true, m⟩ :: B) (n + m) B

/-- A free one that comes before takes in the tile of size `n`. -/
inductive JoinsLower (n : Nat) : List Tile → Nat → List Tile → Prop
  | apart (A : List Tile) (h : ∀ t ∈ A.getLast?, t.free = false) : JoinsLower n A n A
  | joined (k : Nat) (A : List Tile) : JoinsLower n (A ++ [⟨true, k⟩]) (k + n) A

variable {n n' : Nat} {A A' B B' : List Tile}

theorem JoinsUpper.span (h : JoinsUpper n B n' B') : n' + span B' = n + span B := by
  cases h with
  | apart => rfl
  | joined m => rw [span_cons, Nat.add_assoc]

theorem JoinsUpper.rooms (h : JoinsUpper n B n' B') : rooms (x + n') B' = rooms (x + n) B := by
  cases h with
  | apart => rfl
  | joined m => rw [rooms_cons_free, Nat.add_assoc]

theorem JoinsUpper.le (h : JoinsUpper n B n' B') : n ≤ n' := by
  cases h with
  | apart => exact le_rfl
  | joined m => exact Nat.le_add_right ..

theorem JoinsUpper.subset (h : JoinsUpper n B n' B') : ∀ t ∈ B', t ∈ B := by
  cases h with
  | apart => exact fun t ht => ht
  | joined m => exact fun t ht => List.mem_cons_of_mem _ ht

theorem JoinsLower.span (h : JoinsLower n A n' A') : Tiling.span A' + n' = Tiling.span A + n := by
  cases h with
  | apart => rfl
  | joined k => rw [span_append, span_cons, span_nil, Nat.add_zero, Nat.add_assoc]

theorem JoinsLower.rooms (h : JoinsLower n A n' A') : rooms a A' = rooms a A := by
  cases h with
  | apart => rfl
  | joined k => rw [rooms_append, rooms_cons_free, rooms_nil, List.append_nil]

theorem JoinsLower.le (h : JoinsLower n A n' A') : n ≤ n' := by
  cases h with
  | apart => exact le_rfl
  | joined k => exact Nat.le_add_left ..

/-- The tile of size `n` between `A` and `B` is freed. -/
def Frees (A : List Tile) (n : Nat) (B ts : List Tile) : Prop :=
  ∃ n₁ n₂ A' B', JoinsUpper n B n₁ B' ∧ JoinsLower n₁ A n₂ A' ∧ ts = A' ++ ⟨true, n₂⟩ :: B'

theorem Frees.rooms (h : Frees A n B ts) : Tiling.rooms a ts = Tiling.rooms a A ++ Tiling.rooms (a + Tiling.span A + n) B := by
  obtain ⟨n₁, n₂, A', B', hu, hl, rfl⟩ := h
  rw [rooms_append, rooms_cons_free, hl.rooms, Nat.add_assoc, hl.span, ← Nat.add_assoc, hu.rooms]

theorem Frees.room (h : Frees A n B ts) : ∃ x m, (x, ⟨true, m⟩) ∈ spots a ts ∧ n ≤ m := by
  obtain ⟨n₁, n₂, A', B', hu, hl, rfl⟩ := h
  exact ⟨_, n₂, mem_spots.mpr ⟨A', B', rfl, rfl⟩, hu.le.trans hl.le⟩

theorem apart_append_cons : Apart (A ++ t :: B) ↔
    Apart A ∧ Apart B ∧ (∀ u ∈ A.getLast?, ¬(u.free = true ∧ t.free = true)) ∧ ∀ u ∈ B.head?, ¬(t.free = true ∧ u.free = true) := by
  unfold Apart
  rw [List.isChain_append, List.isChain_cons]
  constructor
  · rintro ⟨hA, ⟨hB, hB'⟩, hcut⟩
    exact ⟨hA, hB', fun u hu => hcut u hu t rfl, hB⟩
  · rintro ⟨hA, hB', hcut, hB⟩
    refine ⟨hA, ⟨hB, hB'⟩, fun u hu v hv => ?_⟩
    cases hv
    exact hcut u hu

theorem apart_used : Apart (A ++ ⟨false, n⟩ :: B) ↔ Apart A ∧ Apart B := by
  rw [apart_append_cons]
  constructor
  · exact fun h => ⟨h.1, h.2.1⟩
  · exact fun h => ⟨h.1, h.2, (fun _ _ h => nomatch h.2), fun _ _ h => nomatch h.1⟩

theorem JoinsUpper.apart_of (h : JoinsUpper n B n' B') (hB : Apart B) : Apart B' ∧ ∀ t ∈ B'.head?, t.free = false := by
  cases h with
  | apart B h => exact ⟨hB, h⟩
  | joined m B =>
    obtain ⟨hhead, htail⟩ := List.isChain_cons.mp hB
    exact ⟨htail, fun t ht => Bool.eq_false_iff.mpr fun hfree => hhead t ht ⟨rfl, hfree⟩⟩

end Tiling
