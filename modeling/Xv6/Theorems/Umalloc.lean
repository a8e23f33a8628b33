import Xv6.Lib.Circle
import Xv6.Lib.Tiling
import Xv6.Umalloc

/-! The heap of a user program: it is tiled by the free blocks, which form the circular list, and the blocks in use. -/

namespace Xv6
open Function (update update_of_ne update_self)
namespace Umalloc
open Machine Tiling
variable {s t : Umalloc} {ts A B : List Tile} {bp p q n : Nat}

/-! ### Memory -/

@[simp] theorem setPtr_ptr (s : Umalloc) (p q : Nat) : (s.setPtr p q).ptr = update s.ptr p q := by
  funext x
  by_cases hx : x = p
  · subst hx
    simp [setPtr, ptr]
  · simp [setPtr, ptr, hx]

@[simp] theorem setPtr_size (s : Umalloc) (p q : Nat) : (s.setPtr p q).size = s.size := by
  funext x
  by_cases hx : x = p
  · subst hx
    simp [setPtr, size]
  · simp [setPtr, size, hx]

@[simp] theorem setSize_size (s : Umalloc) (p n : Nat) : (s.setSize p n).size = update s.size p n := by
  funext x
  by_cases hx : x = p
  · subst hx
    simp [setSize, size]
  · simp [setSize, size, hx]

@[simp] theorem setSize_ptr (s : Umalloc) (p n : Nat) : (s.setSize p n).ptr = s.ptr := by
  funext x
  by_cases hx : x = p
  · subst hx
    simp [setSize, ptr]
  · simp [setSize, ptr, hx]

structure Same (s t : Umalloc) : Prop where
  base : t.base = s.base
  start : t.start = s.start
  brk : t.brk = s.brk
  live : t.live = s.live

/-! ### The shape of the heap -/

/-- The heap is cut into tiles, with their sizes in the headers, and the list goes through `base` and the free tiles. -/
structure Shape (s : Umalloc) (ts : List Tile) : Prop where
  base_pos : 0 < s.base
  base_le : s.base + HEADER ≤ s.start
  base_size : s.size s.base = 0
  pos : ∀ t ∈ ts, 0 < t.size
  apart : Apart ts
  brk : s.start + span ts = s.brk
  sizes : Sized (fun x => s.size x * HEADER) s.start ts
  circle : Cyclic s.ptr (s.base :: holes s.start ts)
  freep : s.freep ∈ s.base :: holes s.start ts

theorem Shape.setLive (h : s.Shape ts) (live : List (Nat × Nat)) : Shape { s with live := live } ts :=
  ⟨h.base_pos, h.base_le, h.base_size, h.pos, h.apart, h.brk, h.sizes, h.circle, h.freep⟩

theorem Shape.base_lt (h : s.Shape ts) : s.base < s.start := lt_of_lt_of_le (Nat.lt_add_of_pos_right (by decide)) h.base_le

theorem Shape.sorted (h : s.Shape ts) : (s.base :: holes s.start ts).Pairwise (· < ·) := by
  refine List.pairwise_cons.mpr ⟨fun x hx => ?_, holes_pairwise h.pos⟩
  exact h.base_lt.trans_le (hole_bounds h.pos hx).1

/-! ### The search in `free` -/

def Stop (s : Umalloc) (bp p : Nat) : Prop := bp > p ∧ bp < s.ptr p ∨ p ≥ s.ptr p ∧ (bp > p ∨ bp < s.ptr p)

theorem search_of_stop {steps : Nat} (h : s.Stop bp p) : s.search bp (steps + 1) p = some p := by
  rw [search]
  rcases h with h | h
  · rw [if_pos h]
  · rw [if_pos h, ite_self]

theorem search_of_not_stop {steps : Nat} (h : ¬s.Stop bp p) : s.search bp (steps + 1) p = s.search bp steps (s.ptr p) := by
  obtain ⟨h, h'⟩ := not_or.mp h
  rw [search, if_neg h, if_neg h']

theorem search_stops {k steps : Nat} (hk : k < steps) (hstop : s.Stop bp (s.ptr^[k] p)) :
    ∃ j ≤ k, s.search bp steps p = some (s.ptr^[j] p) ∧ s.Stop bp (s.ptr^[j] p) := by
  induction steps generalizing p k with
  | zero => cases hk
  | succ steps ih =>
    by_cases hnow : s.Stop bp p
    · exact ⟨0, Nat.zero_le k, search_of_stop hnow, hnow⟩
    · cases k with
      | zero => exact absurd hstop hnow
      | succ k =>
        obtain ⟨j, hj, hsearch, hstop'⟩ := ih (Nat.lt_of_succ_lt_succ hk) hstop
        exact ⟨j + 1, Nat.succ_le_succ hj, (search_of_not_stop hnow).trans hsearch, hstop'⟩

theorem stop_iff {l : List Nat} (h : Cyclic s.ptr l) (hl : l.Pairwise (· < ·)) (hp : p ∈ l) (hlt : p < bp)
    (hcut : ∀ x ∈ l, x ≤ p ∨ bp < x) {x : Nat} (hx : x ∈ l) : s.Stop bp x ↔ x = p := by
  have hnext := h.next_of_sorted hl hx
  have hcut' := hcut _ (h.next_mem hx)
  constructor
  · intro hstop
    have hxp := hcut x hx
    rcases hnext with ⟨hup, hgap⟩ | ⟨hmax, hmin⟩
    · have := hgap p hp
      unfold Stop at hstop
      omega
    · have := hmax p hp
      have := hmin p hp
      unfold Stop at hstop
      omega
  · rintro rfl
    rcases hnext with ⟨hup, hgap⟩ | ⟨hmax, hmin⟩
    · unfold Stop
      omega
    · have := hmin x hx
      unfold Stop
      omega

theorem search_eq {l : List Nat} {steps : Nat} (h : Cyclic s.ptr l) (hl : l.Pairwise (· < ·)) (hp : p ∈ l) (hlt : p < bp)
    (hcut : ∀ x ∈ l, x ≤ p ∨ bp < x) (hfrom : q ∈ l) (hsteps : l.length ≤ steps) : s.search bp steps q = some p := by
  obtain ⟨k, hk, hreach⟩ := h.reaches hfrom hp
  have hstop : s.Stop bp (s.ptr^[k] q) := hreach ▸ (stop_iff h hl hp hlt hcut hp).mpr rfl
  obtain ⟨j, -, hsearch, hstop'⟩ := search_stops (hk.trans_le hsteps) hstop
  have hmem : ∀ j, s.ptr^[j] q ∈ l := by
    intro j
    induction j with
    | zero => exact hfrom
    | succ j ih =>
      rw [Function.iterate_succ_apply']
      exact h.next_mem ih
  rw [hsearch, (stop_iff h hl hp hlt hcut (hmem j)).mp hstop']

/-! ### Joining blocks in `free` -/

variable {K : List Nat}

/-- A block in use at `bp`, and the free one before it. -/
structure Before (s : Umalloc) (A : List Tile) (n : Nat) (B : List Tile) (bp p : Nat) (K : List Nat) : Prop where
  base_lt : s.base < s.start
  pos : ∀ t ∈ A ++ ⟨false, n⟩ :: B, 0 < t.size
  bp : bp = s.start + span A
  list : s.base :: holes s.start A = K ++ [p]

theorem Shape.before (h : s.Shape (A ++ ⟨false, n⟩ :: B)) : ∃ p K, s.Before A n B (s.start + span A) p K := by
  rcases List.eq_nil_or_concat' (s.base :: holes s.start A) with hnil | ⟨K, p, hlist⟩
  · cases hnil
  · exact ⟨p, K, h.base_lt, h.pos, rfl, hlist⟩

namespace Before
variable {x : Nat}

section
variable (hb : s.Before A n B bp p K)
include hb

theorem pos_before : ∀ t ∈ A, 0 < t.size := fun t ht => hb.pos t (List.mem_append_left _ ht)

theorem pos_behind : ∀ t ∈ B, 0 < t.size := fun t ht =>
  hb.pos t (List.mem_append_right _ (List.mem_cons_of_mem _ ht))

theorem pos_self : 0 < n := hb.pos ⟨false, n⟩ (by simp)

theorem lt_self (hx : x ∈ K ++ [p]) : x < bp := by
  rw [← hb.list] at hx
  rw [hb.bp]
  rcases List.mem_cons.mp hx with rfl | hx
  · exact Nat.lt_add_right _ hb.base_lt
  · exact (hole_bounds hb.pos_before hx).2

theorem lt_of_behind (hx : x ∈ holes (bp + n) B) : bp < x :=
  lt_of_lt_of_le (Nat.lt_add_of_pos_right hb.pos_self) (hole_bounds hb.pos_behind hx).1

theorem lt_p (hx : x ∈ K) : x < p := by
  have hsorted : (s.base :: holes s.start A).Pairwise (· < ·) :=
    .cons (fun x hx => hb.base_lt.trans_le (hole_bounds hb.pos_before hx).1) (holes_pairwise hb.pos_before)
  rw [hb.list] at hsorted
  exact (List.pairwise_append.mp hsorted).2.2 x hx p List.mem_cons_self

theorem p_lt : p < bp := hb.lt_self (List.mem_append_right _ (List.mem_singleton_self p))

theorem ne_of_rest (hx : x ∈ holes (bp + n) B ++ K) : x ≠ p ∧ x ≠ bp := by
  have hp := hb.p_lt
  rcases List.mem_append.mp hx with hx | hx
  · have := hb.lt_of_behind hx
    omega
  · have := hb.lt_p hx
    omega

theorem holes_eq : s.base :: holes s.start (A ++ ⟨false, n⟩ :: B) = (K ++ [p]) ++ holes (bp + n) B := by
  rw [holes_append, holes_cons_used, ← List.cons_append, hb.list, ← hb.bp]

end

end Before

theorem Shape.circle_from (h : s.Shape (A ++ ⟨false, n⟩ :: B)) (hb : s.Before A n B bp p K) :
    Cyclic s.ptr (p :: (holes (bp + n) B ++ K)) := by
  have hc := h.circle
  rw [hb.holes_eq, List.append_assoc] at hc
  exact hc.rotate

theorem Shape.search_eq (h : s.Shape (A ++ ⟨false, n⟩ :: B)) (hb : s.Before A n B bp p K) {steps : Nat}
    (hsteps : (s.base :: holes s.start (A ++ ⟨false, n⟩ :: B)).length ≤ steps) : s.search bp steps s.freep = some p := by
  refine Umalloc.search_eq h.circle h.sorted ?_ hb.p_lt ?_ h.freep hsteps
  · rw [hb.holes_eq]
    simp
  · intro x hx
    rw [hb.holes_eq] at hx
    rcases List.mem_append.mp hx with hx | hx
    · left
      rcases List.mem_append.mp hx with hx | hx
      · exact (hb.lt_p hx).le
      · rw [List.mem_singleton.mp hx]
    · exact .inr (hb.lt_of_behind hx)

/-- The heap when `bp` points to what follows, and `p` does not point to it yet. -/
structure Detached (s : Umalloc) (A : List Tile) (n : Nat) (B : List Tile) (bp p : Nat) (K : List Nat) : Prop where
  base_size : s.size s.base = 0
  sizes : Sized (fun x => s.size x * HEADER) s.start (A ++ ⟨false, n⟩ :: B)
  circle : Cyclic (update s.ptr p (s.ptr bp)) (p :: (holes (bp + n) B ++ K))

theorem Shape.sizes_cut (h : s.Shape (A ++ ⟨false, n⟩ :: B)) (hb : s.Before A n B bp p K) :
    Sized (fun x => s.size x * HEADER) s.start A ∧ s.size bp * HEADER = n ∧ Sized (fun x => s.size x * HEADER) (bp + n) B := by
  obtain ⟨hA, hrest⟩ := sized_append.mp h.sizes
  rw [← hb.bp] at hrest
  exact ⟨hA, sized_cons.mp hrest⟩

theorem joinUpper_same (s : Umalloc) (bp p : Nat) : s.Same (s.joinUpper bp p) := by
  unfold Umalloc.joinUpper
  split <;> exact ⟨rfl, rfl, rfl, rfl⟩

theorem Shape.joinUpper (h : s.Shape (A ++ ⟨false, n⟩ :: B)) (hb : s.Before A n B bp p K) :
    ∃ n' B', JoinsUpper n B n' B' ∧ (s.joinUpper bp p).Detached A n' B' bp p K := by
  have hcircle := h.circle_from hb
  have hrest := fun x => hb.ne_of_rest (x := x)
  obtain ⟨hA, hn, hB⟩ := h.sizes_cut hb
  have hbase : s.base < bp := hb.lt_self (hb.list ▸ List.mem_cons_self)
  have hp := hb.p_lt
  by_cases hfree : ∃ m B', B = ⟨true, m⟩ :: B'
  · obtain ⟨m, B', rfl⟩ := hfree
    refine ⟨n + m, B', .joined m B', ?_⟩
    rw [holes_cons_free, List.cons_append] at hcircle hrest
    have hq : s.ptr p = bp + n := (List.isChain_cons_cons.mp (Cyclic.cons_iff.mp hcircle)).1
    obtain ⟨hm, hB'⟩ := sized_cons.mp hB
    have hjoin : s.joinUpper bp p = (s.setSize bp (s.size bp + s.size (bp + n))).setPtr bp (s.ptr (bp + n)) := by
      rw [Umalloc.joinUpper, if_pos (by rw [hn, hq])]
      simp only [setSize_ptr, hq]
    rw [hjoin]
    refine ⟨?_, sized_append.mpr ⟨?_, ?_⟩, ?_⟩
    · rw [setPtr_size, setSize_size]
      exact (update_of_ne hbase.ne _ _).trans h.base_size
    · simp only [setPtr_size, setSize_size]
      refine hA.congr hb.pos_before fun x _ hx => ?_
      rw [update_of_ne]
      exact (hb.bp ▸ hx).ne
    · simp only [setPtr_size, setSize_size]
      show Sized _ (s.start + span A) _
      rw [← hb.bp]
      refine sized_cons.mpr ⟨?_, ?_⟩
      · rw [update_self, Nat.add_mul, hn, hm]
      · show Sized _ (bp + (n + m)) B'
        rw [← Nat.add_assoc]
        refine hB'.congr (fun t ht => hb.pos_behind t (List.mem_cons_of_mem _ ht)) fun x hx _ => ?_
        rw [update_of_ne]
        have := hb.pos_self
        omega
    · simp only [setPtr_ptr, setSize_ptr, update_self]
      rw [← Nat.add_assoc]
      refine hcircle.remove (update_self ..) fun x hx => ?_
      obtain ⟨hxp, hxbp⟩ := hrest x (List.mem_cons_of_mem _ hx)
      rw [update_of_ne hxp, update_of_ne hxbp]
  · have hhead : ∀ t ∈ B.head?, t.free = false := by
      intro t ht
      cases B with
      | nil => cases ht
      | cons u B =>
        cases ht
        refine Bool.eq_false_iff.mpr fun hfree' => hfree ⟨t.size, B, ?_⟩
        rw [← hfree']
    have hne : bp + s.size bp * HEADER ≠ s.ptr p := by
      rw [hn]
      intro heq
      have hnext : s.ptr p ∈ p :: (holes (bp + n) B ++ K) := hcircle.next_mem List.mem_cons_self
      rw [← heq] at hnext
      rcases List.mem_cons.mp hnext with hnext | hnext
      · omega
      · rcases List.mem_append.mp hnext with hnext | hnext
        · exact lt_irrefl _ (lt_hole hhead hb.pos_behind hnext)
        · have := hb.lt_self (List.mem_append_left _ hnext)
          omega
    refine ⟨n, B, .apart B hhead, ?_⟩
    rw [Umalloc.joinUpper, if_neg hne]
    refine ⟨?_, ?_, hcircle.congr fun x hx => ?_⟩
    · rw [setPtr_size]
      exact h.base_size
    · simp only [setPtr_size]
      exact h.sizes
    · rw [setPtr_ptr, update_self]
      rcases List.mem_cons.mp hx with rfl | hx
      · exact update_self ..
      · obtain ⟨hxp, hxbp⟩ := hrest x hx
        rw [update_of_ne hxp, update_of_ne hxbp]

theorem joinLower_same (s : Umalloc) (bp p : Nat) : s.Same (s.joinLower bp p) := by
  unfold Umalloc.joinLower
  split <;> exact ⟨rfl, rfl, rfl, rfl⟩

theorem Before.of_free {k : Nat} (hb : s.Before (A ++ [⟨true, k⟩]) n B bp p K) : K = s.base :: holes s.start A ∧ p = s.start + span A := by
  have hlist := hb.list
  rw [holes_append, holes_cons_free, holes_nil, ← List.cons_append] at hlist
  obtain ⟨hK, hp⟩ := List.append_inj' hlist rfl
  exact ⟨hK.symm, (List.singleton_inj.mp hp).symm⟩

theorem Before.touches_iff (hb : s.Before A n B bp p K) (hbase_size : s.size s.base = 0)
    (hsizes : Sized (fun x => s.size x * HEADER) s.start A) : p + s.size p * HEADER = bp ↔ ∃ k A', A = A' ++ [⟨true, k⟩] := by
  constructor
  · intro heq
    have hp : p ∈ s.base :: holes s.start A := hb.list ▸ List.mem_append_right _ (List.mem_singleton_self p)
    rcases List.mem_cons.mp hp with rfl | hp
    · rw [hbase_size, Nat.zero_mul] at heq
      exact absurd heq hb.p_lt.ne
    · obtain ⟨k, hk⟩ := mem_holes.mp hp
      have hsize := hsizes p _ hk
      rcases List.eq_nil_or_concat' A with rfl | ⟨A', ⟨free, m⟩, rfl⟩
      · cases hp
      · cases free with
        | true => exact ⟨m, A', rfl⟩
        | false =>
          have := hole_end_lt (fun t ht => by simp at ht; rw [← ht]) hb.pos_before hk
          dsimp only at hsize
          rw [hsize, hb.bp] at heq
          omega
  · rintro ⟨k, A', rfl⟩
    obtain ⟨-, rfl⟩ := hb.of_free
    have hsize := hsizes (s.start + span A') ⟨true, k⟩ (mem_spots.mpr ⟨A', [], rfl, rfl⟩)
    dsimp only at hsize
    rw [hsize, hb.bp, span_append, span_cons, span_nil]
    dsimp only
    omega

/-- What is known of the tiles. -/
structure Detached.Ok (s : Umalloc) (A : List Tile) (n : Nat) (B : List Tile) : Prop where
  base_pos : 0 < s.base
  base_le : s.base + HEADER ≤ s.start
  brk : s.start + span (A ++ ⟨false, n⟩ :: B) = s.brk
  before : Apart A
  behind : Apart B
  head : ∀ t ∈ B.head?, t.free = false

theorem Detached.joinLower (h : s.Detached A n B bp p K) (hb : s.Before A n B bp p K) (hok : Detached.Ok s A n B) :
    ∃ n' A', JoinsLower n A n' A' ∧ Shape { s.joinLower bp p with freep := p } (A' ++ ⟨true, n'⟩ :: B) := by
  obtain ⟨hA, hrest⟩ := sized_append.mp h.sizes
  rw [← hb.bp] at hrest
  obtain ⟨hn, hB⟩ := sized_cons.mp hrest
  dsimp only at hn hB
  have htouch := hb.touches_iff h.base_size hA
  by_cases hjoin : p + s.size p * HEADER = bp
  · obtain ⟨k, A', rfl⟩ := htouch.mp hjoin
    obtain ⟨rfl, rfl⟩ := hb.of_free
    obtain ⟨hA', hk⟩ := sized_append.mp hA
    have hk := (sized_cons.mp hk).1
    dsimp only at hk
    have hbp : bp = s.start + span A' + k := by rw [← hjoin, hk]
    refine ⟨k + n, A', .joined k A', ?_⟩
    rw [Umalloc.joinLower, if_pos hjoin]
    refine ⟨hok.base_pos, hok.base_le, ?_, ?_, ?_, ?_, ?_, ?_, ?_⟩
    · show (Umalloc.setPtr _ _ _).size s.base = 0
      rw [setPtr_size, setSize_size, update_of_ne (Nat.lt_add_right _ hb.base_lt).ne]
      exact h.base_size
    · exact List.forall_mem_append.mpr ⟨(List.forall_mem_append.mp hb.pos_before).1,
        List.forall_mem_cons.mpr ⟨Nat.add_pos_right k hb.pos_self, hb.pos_behind⟩⟩
    · obtain ⟨hA'', -, hcut, -⟩ := apart_append_cons.mp hok.before
      refine apart_append_cons.mpr ⟨hA'', hok.behind, hcut, fun u hu hfree => ?_⟩
      exact nomatch hfree.2.symm.trans (hok.head u hu)
    · have hbrk := hok.brk
      simp only [span_append, span_cons, span_nil] at hbrk ⊢
      show s.start + _ = s.brk
      omega
    · show Sized (fun x => (Umalloc.setPtr _ _ _).size x * HEADER) s.start _
      simp only [setPtr_size, setSize_size]
      refine sized_append.mpr ⟨hA'.congr (fun t ht => hb.pos_before t (List.mem_append_left _ ht)) fun x _ hx => ?_, sized_cons.mpr ⟨?_, ?_⟩⟩
      · rw [update_of_ne hx.ne]
      · dsimp only
        rw [update_self, Nat.add_mul, hk, hn]
      · dsimp only
        rw [← Nat.add_assoc, ← hbp]
        refine hB.congr hb.pos_behind fun x hx _ => ?_
        have := hb.pos_self
        rw [update_of_ne (by omega)]
    · show Cyclic (Umalloc.setPtr _ _ _).ptr (s.base :: holes s.start _)
      rw [setPtr_ptr, setSize_ptr, holes_append, holes_cons_free, ← Nat.add_assoc, ← hbp, ← List.cons_append]
      have hcircle := h.circle
      rw [← List.cons_append] at hcircle
      exact hcircle.rotate
    · show _ ∈ s.base :: holes s.start _
      rw [holes_append, holes_cons_free]
      exact List.mem_cons_of_mem _ (List.mem_append_right _ List.mem_cons_self)
  · have hlast : ∀ t ∈ A.getLast?, t.free = false := by
      intro t ht
      obtain ⟨A', rfl⟩ := List.getLast?_eq_some_iff.mp ht
      refine Bool.eq_false_iff.mpr fun hfree => hjoin (htouch.mpr ⟨t.size, A', ?_⟩)
      rw [← hfree]
    refine ⟨n, A, .apart A hlast, ?_⟩
    rw [Umalloc.joinLower, if_neg hjoin]
    refine ⟨hok.base_pos, hok.base_le, ?_, ?_, ?_, ?_, ?_, ?_, ?_⟩
    · show (Umalloc.setPtr _ _ _).size s.base = 0
      rw [setPtr_size]
      exact h.base_size
    · exact List.forall_mem_append.mpr ⟨hb.pos_before, List.forall_mem_cons.mpr ⟨hb.pos_self, hb.pos_behind⟩⟩
    · refine apart_append_cons.mpr ⟨hok.before, hok.behind, fun u hu hfree => ?_, fun u hu hfree => ?_⟩
      · exact nomatch hfree.1.symm.trans (hlast u hu)
      · exact nomatch hfree.2.symm.trans (hok.head u hu)
    · have hbrk := hok.brk
      simp only [span_append, span_cons] at hbrk ⊢
      exact hbrk
    · show Sized (fun x => (Umalloc.setPtr _ _ _).size x * HEADER) s.start _
      simp only [setPtr_size]
      exact sized_append.mpr ⟨hA, hb.bp ▸ sized_cons.mpr ⟨hn, hB⟩⟩
    · show Cyclic (Umalloc.setPtr _ _ _).ptr (s.base :: holes s.start _)
      rw [setPtr_ptr, holes_append, holes_cons_free, ← hb.bp, ← List.cons_append, hb.list, List.append_assoc]
      have hcircle : Cyclic (update s.ptr p bp) (p :: bp :: (holes (bp + n) B ++ K)) := by
        refine h.circle.insert (update_self ..) ?_ fun x hx => ?_
        · rw [update_self, update_of_ne hb.p_lt.ne']
        · have hxp := (hb.ne_of_rest hx).1
          rw [update_of_ne hxp, update_of_ne hxp]
      rw [← List.cons_append, ← List.cons_append] at hcircle
      exact hcircle.rotate
    · show _ ∈ s.base :: holes s.start _
      rw [holes_append, ← List.cons_append, hb.list]
      simp

theorem Same.trans {u : Umalloc} (h : s.Same t) (h' : t.Same u) : s.Same u :=
  ⟨h'.base.trans h.base, h'.start.trans h.start, h'.brk.trans h.brk, h'.live.trans h.live⟩

theorem Shape.free (h : s.Shape (A ++ ⟨false, n⟩ :: B)) : ∃ t ts, Frees A n B ts ∧ t.Shape ts ∧ s.Same t ∧
    ∀ steps, (s.base :: holes s.start (A ++ ⟨false, n⟩ :: B)).length ≤ steps →
      s.free steps (s.start + span A + HEADER) = some t := by
  obtain ⟨p, K, hb⟩ := h.before
  generalize hbp : s.start + span A = bp at hb
  obtain ⟨n₁, B', hu, hd⟩ := h.joinUpper hb
  have hsame := joinUpper_same s bp p
  obtain ⟨happA, happB⟩ := apart_used.mp h.apart
  obtain ⟨happB', hhead⟩ := hu.apart_of happB
  have hb' : (s.joinUpper bp p).Before A n₁ B' bp p K := by
    refine ⟨by rw [hsame.base, hsame.start]; exact hb.base_lt, List.forall_mem_append.mpr ⟨hb.pos_before, ?_⟩,
      by rw [hsame.start]; exact hb.bp, by rw [hsame.base, hsame.start]; exact hb.list⟩
    exact List.forall_mem_cons.mpr ⟨hb.pos_self.trans_le hu.le, fun t ht => hb.pos_behind t (hu.subset t ht)⟩
  have hok : Detached.Ok (s.joinUpper bp p) A n₁ B' := by
    refine ⟨hsame.base ▸ h.base_pos, by rw [hsame.base, hsame.start]; exact h.base_le, ?_, happA, happB', hhead⟩
    rw [hsame.start, hsame.brk, ← h.brk, span_append, span_append, span_cons, span_cons]
    exact congrArg (fun x => s.start + (span A + x)) hu.span
  obtain ⟨n₂, A', hl, hshape⟩ := hd.joinLower hb' hok
  have hsame' := hsame.trans (joinLower_same _ bp p)
  refine ⟨_, _, ⟨n₁, n₂, A', B', hu, hl, rfl⟩, hshape, ⟨hsame'.base, hsame'.start, hsame'.brk, hsame'.live⟩, fun steps hsteps => ?_⟩
  rw [Umalloc.free, Nat.add_sub_cancel, h.search_eq hb hsteps]
  rfl

/-! ### `morecore` -/

theorem Shape.extend {nu : Nat} (h : s.Shape ts) (hnu : 0 < nu) :
    Shape (Umalloc.setSize { s with brk := s.brk + nu * HEADER } s.brk nu) (ts ++ [⟨false, nu * HEADER⟩]) := by
  have hend : ∀ x, x < s.start + span ts → x ≠ s.brk := fun x hx => (h.brk ▸ hx).ne
  have hbase : s.base ≠ s.brk := hend _ (Nat.lt_add_right _ h.base_lt)
  refine ⟨h.base_pos, h.base_le, ?_, ?_, ?_, ?_, ?_, ?_, ?_⟩
  · rw [setSize_size]
    exact (update_of_ne hbase _ _).trans h.base_size
  · exact List.forall_mem_append.mpr ⟨h.pos, List.forall_mem_singleton.mpr (Nat.mul_pos hnu (by decide))⟩
  · exact apart_used.mpr ⟨h.apart, .nil⟩
  · rw [span_append, span_cons, span_nil, Nat.add_zero, ← Nat.add_assoc]
    exact congrArg (· + nu * HEADER) h.brk
  · simp only [setSize_size]
    refine sized_append.mpr ⟨h.sizes.congr h.pos fun x _ hx => ?_, sized_cons.mpr ⟨?_, sized_nil⟩⟩
    · rw [update_of_ne (hend x hx)]
      rfl
    · show update s.size s.brk nu (s.start + span ts) * HEADER = _
      rw [h.brk, update_self]
  · rw [setSize_ptr, holes_append, holes_cons_used, holes_nil, List.append_nil]
    exact h.circle
  · rw [holes_append, holes_cons_used, holes_nil, List.append_nil]
    exact h.freep

theorem Shape.morecore {nu : Nat} (h : s.Shape ts) (hnu : nu * HEADER < 2 ^ 32) :
    ∃ t ts', t.Shape ts' ∧ t.base = s.base ∧ t.start = s.start ∧ t.live = s.live ∧ rooms s.start ts' = rooms s.start ts ∧
      (∃ x m, (x, ⟨true, m⟩) ∈ spots s.start ts' ∧ nu * HEADER ≤ m) ∧
      ∀ steps, (s.base :: holes s.start ts).length ≤ steps → s.morecore steps nu true = some (some t.freep, t) := by
  generalize hnu' : (if nu < 4096 then 4096 else nu) = nu'
  have hge : nu ≤ nu' ∧ 0 < nu' ∧ nu' * HEADER < 2 ^ 32 := by
    rw [← hnu']
    split
    · exact ⟨by omega, by decide, by decide⟩
    · exact ⟨le_rfl, by omega, hnu⟩
  obtain ⟨hle, hpos, hlt⟩ := hge
  obtain ⟨t, ts', hfrees, hshape, hsame, hfree⟩ := (h.extend hpos).free
  obtain ⟨x, m, hx, hm⟩ := hfrees.room (a := s.start)
  refine ⟨t, ts', hshape, hsame.base, hsame.start, hsame.live, ?_, ⟨x, m, hx, le_trans (Nat.mul_le_mul_right _ hle) hm⟩,
    fun steps hsteps => ?_⟩
  · rw [hfrees.rooms, rooms_nil, List.append_nil]
  · have hap : s.start + span ts + HEADER = s.brk + HEADER := congrArg (· + HEADER) h.brk
    rw [holes_append, holes_cons_used, holes_nil, List.append_nil] at hfree
    have hfree := hfree steps hsteps
    rw [show (Umalloc.setSize { s with brk := s.brk + nu' * HEADER } s.brk nu').start = s.start from rfl, hap] at hfree
    simp only [Umalloc.morecore, hnu', if_true, Nat.mod_eq_of_lt hlt, hfree]
    rfl

/-! ### Taking a block from the list -/

theorem Shape.prev {m prevp : Nat} (h : s.Shape (A ++ ⟨true, m⟩ :: B)) (hprev : prevp ∈ s.base :: holes s.start (A ++ ⟨true, m⟩ :: B))
    (hp : s.ptr prevp = s.start + span A) : ∃ K, s.base :: holes s.start A = K ++ [prevp] := by
  rcases List.eq_nil_or_concat' (s.base :: holes s.start A) with hnil | ⟨K, q, hlist⟩
  · cases hnil
  have hsorted := h.sorted
  have hnext := h.circle.next_of_sorted h.sorted hprev
  rw [holes_append, holes_cons_free, ← List.cons_append, hlist] at hsorted hnext hprev
  obtain ⟨hK, hB, hcross⟩ := List.pairwise_append.mp hsorted
  have hq : q ∈ K ++ [q] := List.mem_append_right _ (List.mem_singleton_self q)
  have hqp : q < s.start + span A := hcross q hq _ List.mem_cons_self
  have hlt : prevp < s.start + span A ∧ q ≤ prevp := by
    rw [hp] at hnext
    rcases hnext with ⟨hlt, hgap⟩ | ⟨-, hmin⟩
    · have := hgap q (List.mem_append_left _ hq)
      omega
    · have := hmin q (List.mem_append_left _ hq)
      omega
  have hle : prevp ≤ q := by
    rcases List.mem_append.mp hprev with hmem | hmem
    · rcases List.mem_append.mp hmem with hmem | hmem
      · exact ((List.pairwise_append.mp hK).2.2 _ hmem q List.mem_cons_self).le
      · exact (List.mem_singleton.mp hmem).le
    · rcases List.mem_cons.mp hmem with hmem | hmem
      · omega
      · have := (List.pairwise_cons.mp hB).1 _ hmem
        omega
  exact ⟨K, (le_antisymm hle hlt.2) ▸ hlist⟩

theorem Shape.take_all {m prevp : Nat} (h : s.Shape (A ++ ⟨true, m⟩ :: B)) (hK : s.base :: holes s.start A = K ++ [prevp]) :
    Shape { s.setPtr prevp (s.ptr (s.start + span A)) with freep := prevp } (A ++ ⟨false, m⟩ :: B) := by
  have hlist : s.base :: holes s.start (A ++ ⟨true, m⟩ :: B) = K ++ prevp :: (s.start + span A) :: holes (s.start + span A + m) B := by
    rw [holes_append, holes_cons_free, ← List.cons_append, hK, List.append_assoc]
    rfl
  have hsorted := h.sorted
  have hcircle := h.circle
  rw [hlist] at hsorted hcircle
  obtain ⟨-, hB, hcross⟩ := List.pairwise_append.mp hsorted
  have hlist' : s.base :: holes s.start (A ++ ⟨false, m⟩ :: B) = K ++ prevp :: holes (s.start + span A + m) B := by
    rw [holes_append, holes_cons_used, ← List.cons_append, hK, List.append_assoc]
    rfl
  refine ⟨h.base_pos, h.base_le, ?_, ?_, ?_, ?_, ?_, ?_, ?_⟩
  · show (s.setPtr _ _).size s.base = 0
    rw [setPtr_size]
    exact h.base_size
  · have hpos := h.pos
    rw [List.forall_mem_append, List.forall_mem_cons] at hpos ⊢
    exact hpos
  · obtain ⟨hA, hB', -⟩ := apart_append_cons.mp h.apart
    exact apart_used.mpr ⟨hA, hB'⟩
  · have hbrk := h.brk
    rw [span_append, span_cons] at hbrk ⊢
    exact hbrk
  · show Sized (fun x => (s.setPtr _ _).size x * HEADER) s.start _
    simp only [setPtr_size]
    obtain ⟨hA, hrest⟩ := sized_append.mp h.sizes
    exact sized_append.mpr ⟨hA, sized_cons.mpr (sized_cons.mp hrest)⟩
  · show Cyclic (s.setPtr _ _).ptr (s.base :: holes s.start _)
    rw [setPtr_ptr, hlist']
    have hrot := hcircle.rotate
    rw [List.cons_append, List.cons_append] at hrot
    have hremoved : Cyclic (update s.ptr prevp (s.ptr (s.start + span A))) (prevp :: (holes (s.start + span A + m) B ++ K)) := by
      refine hrot.remove (update_self ..) fun x hx => update_of_ne ?_ _ _
      rcases List.mem_append.mp hx with hx | hx
      · exact ((List.pairwise_cons.mp hB).1 x (List.mem_cons_of_mem _ hx)).ne'
      · exact (hcross x hx prevp List.mem_cons_self).ne
    rw [← List.cons_append] at hremoved
    exact hremoved.rotate
  · show prevp ∈ s.base :: holes s.start _
    rw [hlist']
    exact List.mem_append_right _ List.mem_cons_self

theorem Shape.take_end {m nunits prevp : Nat} (h : s.Shape (A ++ ⟨true, m⟩ :: B)) (hprev : prevp ∈ s.base :: holes s.start (A ++ ⟨true, m⟩ :: B))
    (hpos : 0 < nunits) (hlt : nunits < s.size (s.start + span A)) :
    Shape { (s.setSize (s.start + span A) (s.size (s.start + span A) - nunits)).setSize
        (s.start + span A + (s.size (s.start + span A) - nunits) * HEADER) nunits with freep := prevp }
      (A ++ ⟨true, (s.size (s.start + span A) - nunits) * HEADER⟩ :: ⟨false, nunits * HEADER⟩ :: B) := by
  obtain ⟨hA, hrest⟩ := sized_append.mp h.sizes
  obtain ⟨hm, hB⟩ := sized_cons.mp hrest
  dsimp only at hm hB
  have hsplit : (s.size (s.start + span A) - nunits) * HEADER + nunits * HEADER = m := by
    rw [← Nat.add_mul, Nat.sub_add_cancel hlt.le, hm]
  have hleft : 0 < (s.size (s.start + span A) - nunits) * HEADER := Nat.mul_pos (Nat.sub_pos_of_lt hlt) (by decide)
  have hunits : 0 < nunits * HEADER := Nat.mul_pos hpos (by decide)
  have hbase := h.base_lt
  obtain ⟨hposA, hposB⟩ := List.forall_mem_append.mp h.pos
  have hposB := (List.forall_mem_cons.mp hposB).2
  generalize hk : (s.size (s.start + span A) - nunits) * HEADER = k at hsplit hleft ⊢
  have hlist : holes s.start (A ++ ⟨true, k⟩ :: ⟨false, nunits * HEADER⟩ :: B) = holes s.start (A ++ ⟨true, m⟩ :: B) := by
    rw [holes_append, holes_append, holes_cons_free, holes_cons_used, holes_cons_free, Nat.add_assoc, hsplit]
  refine ⟨h.base_pos, h.base_le, ?_, ?_, ?_, ?_, ?_, ?_, ?_⟩
  · show ((s.setSize _ _).setSize _ _).size s.base = 0
    rw [setSize_size, setSize_size, update_of_ne (by omega), update_of_ne (by omega)]
    exact h.base_size
  · exact List.forall_mem_append.mpr ⟨hposA, List.forall_mem_cons.mpr ⟨hleft, List.forall_mem_cons.mpr ⟨hunits, hposB⟩⟩⟩
  · obtain ⟨hA', hB', hcut, -⟩ := apart_append_cons.mp h.apart
    refine apart_append_cons.mpr ⟨hA', ?_, hcut, fun u hu hfree => ?_⟩
    · exact apart_used.mpr ⟨.nil, hB'⟩
    · cases hu
      exact nomatch hfree.2
  · have hbrk := h.brk
    simp only [span_append, span_cons] at hbrk ⊢
    show s.start + _ = s.brk
    omega
  · show Sized (fun x => ((s.setSize _ _).setSize _ _).size x * HEADER) s.start _
    simp only [setSize_size]
    refine sized_append.mpr ⟨hA.congr hposA fun x _ hx => ?_, sized_cons.mpr ⟨?_, sized_cons.mpr ⟨?_, ?_⟩⟩⟩
    · rw [update_of_ne (by omega), update_of_ne (by omega)]
    · dsimp only
      rw [update_of_ne (by omega), update_self, hk]
    · dsimp only
      rw [update_self]
    · show Sized _ (s.start + span A + k + nunits * HEADER) B
      rw [show s.start + span A + k + nunits * HEADER = s.start + span A + m by omega]
      refine hB.congr hposB fun x hx _ => ?_
      rw [update_of_ne (by omega), update_of_ne (by omega)]
  · show Cyclic ((s.setSize _ _).setSize _ _).ptr (s.base :: holes s.start _)
    rw [setSize_ptr, setSize_ptr, hlist]
    exact h.circle
  · show prevp ∈ s.base :: holes s.start _
    rw [hlist]
    exact hprev

theorem Shape.take {nunits prevp : Nat} (h : s.Shape ts) (hprev : prevp ∈ s.base :: holes s.start ts) (hpos : 0 < nunits)
    (hsize : nunits ≤ s.size (s.ptr prevp)) : ∃ p ts', (s.take nunits prevp (s.ptr prevp)).1 = p + HEADER ∧
      (s.take nunits prevp (s.ptr prevp)).2.Shape ts' ∧ s.Same (s.take nunits prevp (s.ptr prevp)).2 ∧
      (rooms s.start ts').Perm ((p, nunits * HEADER) :: rooms s.start ts) := by
  -- `base` is empty, so it is not taken
  have hhole : s.ptr prevp ∈ holes s.start ts := by
    refine (List.mem_cons.mp (h.circle.next_mem hprev)).resolve_left fun hbase => ?_
    rw [hbase, h.base_size] at hsize
    omega
  obtain ⟨m, hm⟩ := mem_holes.mp hhole
  have hm' := h.sizes _ _ hm
  dsimp only at hm'
  obtain ⟨A, B, rfl, hp⟩ := mem_spots.mp hm
  obtain ⟨K, hK⟩ := h.prev hprev hp
  rw [hp] at hsize hm' ⊢
  rw [Umalloc.take]
  split
  · rename_i heq
    refine ⟨_, _, rfl, h.take_all hK, ⟨rfl, rfl, rfl, rfl⟩, ?_⟩
    rw [← heq, hm', rooms_append, rooms_append, rooms_cons_used, rooms_cons_free]
    exact List.perm_middle
  · rename_i hne
    have hlt := lt_of_le_of_ne hsize (Ne.symm hne)
    simp only [setSize_size, update_self]
    refine ⟨_, _, rfl, h.take_end hprev hpos hlt, ⟨rfl, rfl, rfl, rfl⟩, ?_⟩
    rw [rooms_append, rooms_append, rooms_cons_free, rooms_cons_used, rooms_cons_free]
    have hsplit : s.start + span A + (s.size (s.start + span A) - nunits) * HEADER + nunits * HEADER = s.start + span A + m := by
      rw [Nat.add_assoc, ← Nat.add_mul, Nat.sub_add_cancel hsize, hm']
    rw [hsplit]
    exact List.perm_middle

/-! ### The loop of `malloc` -/

/-- The rest of `malloc` when the loop comes back to `freep`. -/
def ask (nunits steps : Nat) (granted : Nat → Bool) (s : Umalloc) : Option (Option Nat × Umalloc) := do
  let (p, s) ← s.morecore steps nunits (granted 0)
  match p with
  | none => some (none, s)
  | some p => mallocFrom nunits steps (fun k => granted (k + 1)) p (s.ptr p) s

theorem mallocFrom_take {nunits prevp steps m : Nat} {granted : Nat → Bool} (h : nunits ≤ s.size (s.ptr prevp)) (hsteps : m < steps) :
    mallocFrom nunits steps granted prevp (s.ptr prevp) s =
      some (some (s.take nunits prevp (s.ptr prevp)).1, (s.take nunits prevp (s.ptr prevp)).2) := by
  cases steps with
  | zero => cases hsteps
  | succ steps => rw [mallocFrom, if_pos h]

/-- Along the list up to `freep`, the loop takes the first block that is large enough, or else asks for more memory. -/
theorem mallocFrom_walk (nunits : Nat) (granted : Nat → Bool) {prevp : Nat} {xs : List Nat}
    (hchain : List.IsChain (fun x y => s.ptr x = y) (prevp :: (xs ++ [s.freep]))) (hxs : s.freep ∉ xs) :
    (∃ q ∈ prevp :: xs, nunits ≤ s.size (s.ptr q) ∧ ∀ steps, xs.length < steps →
      mallocFrom nunits steps granted prevp (s.ptr prevp) s = some (some (s.take nunits q (s.ptr q)).1, (s.take nunits q (s.ptr q)).2)) ∨
    (∀ x ∈ xs ++ [s.freep], s.size x < nunits) ∧ ∀ steps,
      mallocFrom nunits (steps + xs.length + 1) granted prevp (s.ptr prevp) s = ask nunits steps granted s := by
  induction xs generalizing prevp with
  | nil =>
    have hp : s.ptr prevp = s.freep := (List.isChain_cons_cons.mp hchain).1
    by_cases hsize : nunits ≤ s.size (s.ptr prevp)
    · exact .inl ⟨prevp, List.mem_cons_self, hsize, fun _ => mallocFrom_take hsize⟩
    · refine .inr ⟨List.forall_mem_singleton.mpr (hp ▸ Nat.lt_of_not_le hsize), fun steps => ?_⟩
      rw [mallocFrom, if_neg hsize, if_pos hp]
      rfl
  | cons x xs ih =>
    obtain ⟨hp, hchain⟩ := List.isChain_cons_cons.mp hchain
    obtain ⟨hx, hxs⟩ := not_or.mp (List.mem_cons.not.mp hxs)
    by_cases hsize : nunits ≤ s.size (s.ptr prevp)
    · exact .inl ⟨prevp, List.mem_cons_self, hsize, fun _ => mallocFrom_take hsize⟩
    · have hne : s.ptr prevp ≠ s.freep := fun heq => hx (heq.symm.trans hp)
      have hstep : ∀ steps, mallocFrom nunits (steps + 1) granted prevp (s.ptr prevp) s = mallocFrom nunits steps granted x (s.ptr x) s := by
        intro steps
        rw [mallocFrom, if_neg hsize, if_neg hne, hp]
      rcases ih hchain hxs with ⟨q, hq, hqsize, htake⟩ | ⟨hsmall, hask⟩
      · refine .inl ⟨q, List.mem_cons_of_mem _ hq, hqsize, fun steps hsteps => ?_⟩
        cases steps with
        | zero => cases hsteps
        | succ steps => rw [hstep, htake steps (Nat.lt_of_succ_lt_succ hsteps)]
      · refine .inr ⟨List.forall_mem_cons.mpr ⟨hp ▸ Nat.lt_of_not_le hsize, hsmall⟩, fun steps => ?_⟩
        rw [List.length_cons, ← Nat.add_assoc, hstep, hask]

theorem Shape.from_freep (h : s.Shape ts) : ∃ xs, List.IsChain (fun x y => s.ptr x = y) (s.freep :: (xs ++ [s.freep])) ∧ s.freep ∉ xs ∧
    (s.freep :: xs).Perm (s.base :: holes s.start ts) := by
  obtain ⟨l₁, l₂, hlist⟩ := List.append_of_mem h.freep
  have hcircle := h.circle
  have hsorted := h.sorted
  rw [hlist] at hcircle hsorted ⊢
  have hperm : (s.freep :: (l₂ ++ l₁)).Perm (l₁ ++ s.freep :: l₂) :=
    (List.perm_append_comm.cons _).trans List.perm_middle.symm
  refine ⟨l₂ ++ l₁, Cyclic.cons_iff.mp hcircle.rotate, ?_, hperm⟩
  have hnodup : (l₁ ++ s.freep :: l₂).Nodup := hsorted.imp fun h => h.ne
  exact (List.nodup_cons.mp (hperm.nodup_iff.mpr hnodup)).1

/-- What `malloc` has done: there is a new block, or there was no memory. -/
structure Allocated (s t : Umalloc) (ts : List Tile) (nunits : Nat) (r : Option Nat) : Prop where
  base : t.base = s.base
  start : t.start = s.start
  live : t.live = s.live
  shape : ∃ ts', t.Shape ts' ∧ match r with
    | none => (rooms s.start ts').Perm (rooms s.start ts)
    | some ap => ∃ p, ap = p + HEADER ∧ (rooms s.start ts').Perm ((p, nunits * HEADER) :: rooms s.start ts)

theorem Shape.mallocFrom {nunits : Nat} (h : s.Shape ts) (hpos : 0 < nunits) (hlt : nunits * HEADER < 2 ^ 32) (granted : Nat → Bool) :
    ∃ r t, Allocated s t ts nunits r ∧ ∃ m, ∀ steps, m ≤ steps →
      Umalloc.mallocFrom nunits steps granted s.freep (s.ptr s.freep) s = some (r, t) := by
  obtain ⟨xs, hchain, hxs, hperm⟩ := h.from_freep
  rcases mallocFrom_walk nunits granted hchain hxs with ⟨q, hq, hqsize, htake⟩ | ⟨-, hask⟩
  · obtain ⟨p, ts', hap, hshape, hsame, hrooms⟩ := h.take (hperm.mem_iff.mp hq) hpos hqsize
    exact ⟨some _, _, ⟨hsame.base, hsame.start, hsame.live, ts', hshape, p, hap, hrooms⟩, xs.length + 1, fun steps hsteps => htake steps hsteps⟩
  · have hsteps : ∀ {k steps : Nat}, k + xs.length + 1 ≤ steps → ∃ j, k ≤ j ∧ steps = j + xs.length + 1 := fun {k steps} hk =>
      ⟨steps - (xs.length + 1), by omega, by omega⟩
    cases hgranted : granted 0 with
    | false =>
      refine ⟨none, s, ⟨rfl, rfl, rfl, ts, h, .refl _⟩, 0 + xs.length + 1, fun steps hk => ?_⟩
      obtain ⟨j, -, rfl⟩ := hsteps hk
      rw [hask, ask, hgranted]
      rfl
    | true =>
      obtain ⟨t, ts', hshape, hbase, hstart, hlive, hrooms, ⟨x, m, hx, hm⟩, hmore⟩ := h.morecore hlt
      obtain ⟨ys, hchain', hys, hperm'⟩ := hshape.from_freep
      rcases mallocFrom_walk nunits (fun k => granted (k + 1)) hchain' hys with
        ⟨q, hq, hqsize, htake⟩ | ⟨hsmall, -⟩
      · obtain ⟨p, ts'', hap, hshape', hsame, hrooms'⟩ := hshape.take (hperm'.mem_iff.mp hq) hpos hqsize
        rw [hstart, hrooms] at hrooms'
        refine ⟨some _, _, ⟨hsame.base.trans hbase, hsame.start.trans hstart, hsame.live.trans hlive, ts'', hshape', p, hap, hrooms'⟩,
          (s.base :: holes s.start ts).length + ys.length + 1 + xs.length + 1, fun steps hk => ?_⟩
        obtain ⟨j, hj, rfl⟩ := hsteps hk
        rw [hask, ask, hgranted, hmore j (by omega)]
        exact htake j (by omega)
      · -- the new block is on the list
        rw [← hstart] at hx
        have hmem : x ∈ t.freep :: ys := hperm'.mem_iff.mpr (List.mem_cons_of_mem _ (mem_holes.mpr ⟨m, hx⟩))
        have hsize := hshape.sizes _ _ hx
        have hlt' := hsmall x (by
          rcases List.mem_cons.mp hmem with rfl | hmem
          · exact List.mem_append_right _ (List.mem_singleton_self _)
          · exact List.mem_append_left _ hmem)
        have := Nat.mul_lt_mul_of_pos_right hlt' (show 0 < HEADER by decide)
        dsimp only at hsize
        omega

/-! ### More rounds -/

theorem search_mono {steps steps' : Nat} (hle : steps ≤ steps') (h : s.search bp steps p = some q) : s.search bp steps' p = some q := by
  induction steps generalizing p steps' with
  | zero => cases h
  | succ steps ih =>
    obtain ⟨steps', rfl⟩ : ∃ k, steps' = k + 1 := ⟨steps' - 1, by omega⟩
    rw [search] at h ⊢
    split
    · rwa [if_pos ‹_›] at h
    · rw [if_neg ‹_›] at h
      split
      · rwa [if_pos ‹_›] at h
      · rw [if_neg ‹_›] at h
        exact ih (by omega) h

theorem free_mono {steps steps' ap : Nat} (hle : steps ≤ steps') (h : s.free steps ap = some t) : s.free steps' ap = some t := by
  unfold Umalloc.free at h ⊢
  dsimp only [Option.bind_eq_bind] at h ⊢
  obtain ⟨p, hp, h⟩ := Option.bind_eq_some_iff.mp h
  rw [search_mono hle hp]
  exact h

theorem morecore_mono {steps steps' nu : Nat} {granted : Bool} {r : Option Nat × Umalloc} (hle : steps ≤ steps')
    (h : s.morecore steps nu granted = some r) : s.morecore steps' nu granted = some r := by
  unfold Umalloc.morecore at h ⊢
  dsimp only [Option.bind_eq_bind] at h ⊢
  split
  · rw [if_pos ‹_›] at h
    obtain ⟨t, ht, h⟩ := Option.bind_eq_some_iff.mp h
    rw [free_mono hle ht]
    exact h
  · rwa [if_neg ‹_›] at h

theorem mallocFrom_mono {nunits steps steps' : Nat} {granted : Nat → Bool} {prevp : Nat} {r : Option Nat × Umalloc} (hle : steps ≤ steps')
    (h : mallocFrom nunits steps granted prevp p s = some r) : mallocFrom nunits steps' granted prevp p s = some r := by
  induction steps generalizing granted prevp p s steps' with
  | zero => cases h
  | succ steps ih =>
    obtain ⟨steps', rfl⟩ : ∃ k, steps' = k + 1 := ⟨steps' - 1, by omega⟩
    have hle : steps ≤ steps' := by omega
    rw [mallocFrom] at h ⊢
    dsimp only [Option.bind_eq_bind] at h ⊢
    split
    · rwa [if_pos ‹_›] at h
    · rw [if_neg ‹_›] at h
      split
      · rw [if_pos ‹_›] at h
        obtain ⟨⟨p', t⟩, ht, h⟩ := Option.bind_eq_some_iff.mp h
        rw [morecore_mono hle ht]
        cases p' with
        | none => exact h
        | some p' => exact ih hle h
      · rw [if_neg ‹_›] at h
        exact ih hle h

/-! ### Runs -/

def payload (x : Nat × Nat) : Nat := x.1 + HEADER

/-- The blocks in use are those that `malloc` has returned, with room for what was asked for. -/
structure Inv (s : Umalloc) (ts : List Tile) : Prop where
  shape : s.Shape ts
  live : (s.live.map Prod.fst).Perm ((rooms s.start ts).map payload)
  fits : ∀ ap n, (ap, n) ∈ s.live → ∃ p k, ap = p + HEADER ∧ (p, k) ∈ rooms s.start ts ∧ n + HEADER ≤ k

structure Fresh (s : Umalloc) : Prop where
  base_pos : 0 < s.base
  base_le : s.base + HEADER ≤ s.start
  freep : s.freep = 0
  brk : s.brk = s.start
  live : s.live = []

def Sound (s : Umalloc) : Prop := s.Fresh ∨ ∃ ts, s.Inv ts

theorem Shape.freep_pos (h : s.Shape ts) : s.freep ≠ 0 := by
  have hbase := h.base_pos
  rcases List.mem_cons.mp h.freep with hf | hf
  · omega
  · have := (hole_bounds h.pos hf).1
    have := h.base_lt
    omega

theorem Sound.init (h : s.Sound) : ∃ ts, s.init.Inv ts := by
  rcases h with h | ⟨ts, h⟩
  · rw [Umalloc.init, if_pos h.freep]
    refine ⟨[], ⟨h.base_pos, h.base_le, ?_, (fun t ht => nomatch ht), .nil, ?_, sized_nil, ?_, ?_⟩, ?_, ?_⟩
    · show (Umalloc.setSize _ _ _).size s.base = 0
      rw [setSize_size, update_self]
    · exact h.brk.symm
    · show Cyclic (Umalloc.setSize _ _ _).ptr [s.base]
      rw [setSize_ptr, setPtr_ptr]
      exact (Cycle.chain_singleton _ _).mpr (update_self ..)
    · exact List.mem_cons_self
    · show (s.live.map Prod.fst).Perm []
      rw [h.live]
      exact .refl _
    · intro ap n hn
      have hn : (ap, n) ∈ s.live := hn
      rw [h.live] at hn
      cases hn
  · refine ⟨ts, ?_⟩
    rw [Umalloc.init, if_neg h.shape.freep_pos]
    exact h

theorem nunits_spec {nbytes : Nat} (h : nbytes ≤ 2 ^ 31 - 16) :
    0 < nunits nbytes ∧ nunits nbytes * HEADER < 2 ^ 32 ∧ nbytes + HEADER ≤ nunits nbytes * HEADER := by
  simp only [nunits, HEADER]
  omega

theorem Sound.malloc {nbytes : Nat} (h : s.Sound) (hn : nbytes < 2 ^ 30) (granted : Nat → Bool) :
    ∃ t, t.Sound ∧ ∃ m, ∀ steps, m ≤ steps → s.step (.malloc nbytes granted steps) = .ok t := by
  obtain ⟨ts, hinv⟩ := h.init
  obtain ⟨hpos, hlt, hfit⟩ := @nunits_spec nbytes (by omega)
  obtain ⟨r, t, halloc, m, hm⟩ := hinv.shape.mallocFrom hpos hlt granted
  obtain ⟨ts', hshape, hrooms⟩ := halloc.shape
  cases r with
  | none =>
    refine ⟨t, .inr ⟨ts', hshape, ?_, ?_⟩, m, fun steps hsteps => ?_⟩
    · rw [halloc.live, halloc.start]
      exact hinv.live.trans (hrooms.map _).symm
    · intro ap n hap
      rw [halloc.live] at hap
      obtain ⟨p, k, rfl, hk, hle⟩ := hinv.fits ap n hap
      exact ⟨p, k, rfl, halloc.start ▸ hrooms.mem_iff.mpr hk, hle⟩
    · rw [Umalloc.step, Umalloc.malloc, hm steps hsteps]
  | some ap =>
    obtain ⟨p, rfl, hrooms⟩ := hrooms
    refine ⟨{ t with live := (p + HEADER, nbytes) :: t.live }, .inr ⟨ts', ?_, ?_, ?_⟩, m, fun steps hsteps => ?_⟩
    · exact hshape.setLive _
    · show ((p + HEADER) :: t.live.map Prod.fst).Perm ((rooms t.start ts').map _)
      rw [halloc.live, halloc.start]
      exact (hinv.live.cons (p + HEADER)).trans (hrooms.map payload).symm
    · intro ap n hap
      show ∃ q k, ap = q + HEADER ∧ (q, k) ∈ rooms t.start ts' ∧ _
      rw [halloc.start]
      rcases List.mem_cons.mp hap with hap | hap
      · cases hap
        exact ⟨p, _, rfl, hrooms.mem_iff.mpr List.mem_cons_self, hfit⟩
      · have hap : (ap, n) ∈ t.live := hap
        rw [halloc.live] at hap
        obtain ⟨q, k, rfl, hk, hle⟩ := hinv.fits ap n hap
        exact ⟨q, k, rfl, hrooms.mem_iff.mpr (List.mem_cons_of_mem _ hk), hle⟩
    · rw [Umalloc.step, Umalloc.malloc, hm steps hsteps]

theorem perm_filter_ne {α : Type*} [DecidableEq α] {l xs ys : List α} {x : α} (h : l.Perm (xs ++ x :: ys)) (hl : l.Nodup) :
    (l.filter (· ≠ x)).Perm (xs ++ ys) := by
  have hx : x ∉ xs := by
    have hnodup := List.perm_middle.nodup_iff.mp (h.nodup_iff.mp hl)
    exact fun hx => (List.nodup_cons.mp hnodup).1 (List.mem_append_left _ hx)
  have herase := h.erase x
  rw [List.erase_append_right _ hx, List.erase_cons_head, hl.erase_eq_filter] at herase
  refine .trans (.of_eq (List.filter_congr fun y _ => ?_)) herase
  rw [bne, Bool.eq_iff_iff]
  simp

theorem Inv.free {ap n : Nat} (h : s.Inv ts) (hap : (ap, n) ∈ s.live) :
    ∃ t, t.Sound ∧ ∃ m, ∀ steps, m ≤ steps → s.step (.free ap steps) = .ok t := by
  obtain ⟨p, k, rfl, hk, -⟩ := h.fits ap n hap
  obtain ⟨A, B, rfl, rfl⟩ := mem_spots.mp (mem_rooms.mp hk)
  obtain ⟨t, ts', hfrees, hshape, hsame, hfree⟩ := h.shape.free
  have hrooms := hfrees.rooms (a := s.start)
  have hnodup : (s.live.map Prod.fst).Nodup := by
    refine h.live.nodup_iff.mpr ?_
    have hpayload : Function.Injective (· + HEADER) := fun x y hxy => Nat.add_right_cancel hxy
    have hrooms := (rooms_nodup (a := s.start) h.shape.pos).map hpayload
    rwa [List.map_map] at hrooms
  have hlive := h.live
  have hfits := h.fits
  rw [rooms_append, rooms_cons_used] at hlive hfits
  rw [List.map_append, List.map_cons] at hlive
  have hlive' := perm_filter_ne hlive hnodup
  refine ⟨{ t with live := t.live.filter (·.1 ≠ s.start + span A + HEADER) }, .inr ⟨ts', ?_, ?_, ?_⟩,
    (s.base :: holes s.start (A ++ ⟨false, k⟩ :: B)).length, fun steps hsteps => ?_⟩
  · exact hshape.setLive _
  · show ((t.live.filter _).map Prod.fst).Perm ((rooms t.start ts').map _)
    rw [hsame.live, hsame.start, hrooms, List.map_append]
    rw [List.filter_map] at hlive'
    exact hlive'
  · intro ap' n' hap'
    show ∃ q k', ap' = q + HEADER ∧ (q, k') ∈ rooms t.start ts' ∧ _
    obtain ⟨hmem, hne⟩ := List.mem_filter.mp hap'
    have hmem : (ap', n') ∈ t.live := hmem
    rw [hsame.live] at hmem
    obtain ⟨q, k', rfl, hk', hle⟩ := hfits ap' n' hmem
    refine ⟨q, k', rfl, ?_, hle⟩
    rw [hsame.start, hrooms]
    rcases List.mem_append.mp hk' with hk' | hk'
    · exact List.mem_append_left _ hk'
    · rcases List.mem_cons.mp hk' with hk' | hk'
      · cases hk'
        exact absurd rfl (of_decide_eq_true hne)
      · exact List.mem_append_right _ hk'
  · rw [Umalloc.step, hfree steps hsteps]

theorem Inv.store {ap n k : Nat} {x : Header} (h : s.Inv ts) (hap : (ap, n) ∈ s.live) (hk : HEADER * k < n) :
    Inv { s with mem := update s.mem (ap + HEADER * k) x } ts := by
  obtain ⟨p, m, rfl, hroom, hle⟩ := h.fits ap n hap
  have hspot := mem_rooms.mp hroom
  generalize hz : p + HEADER + HEADER * k = z
  have hin : p < z ∧ z < p + m := by
    simp only [HEADER] at hz hk hle
    omega
  have hstart := (spot_bounds hspot).1
  have hbase : s.base ≠ z := by
    have := h.shape.base_lt
    omega
  have hother : ∀ y u, (y, u) ∈ spots s.start ts → y ≠ z := fun y u hy => spot_ne_inside hspot hy hin.1 hin.2
  have hmem : ∀ y, y ≠ z → update s.mem z x y = s.mem y := fun y hy => update_of_ne hy _ _
  have hsize : ∀ y, y ≠ z → Umalloc.size { s with mem := update s.mem z x } y = s.size y := fun y hy =>
    congrArg Header.size (hmem y hy)
  refine ⟨⟨h.shape.base_pos, h.shape.base_le, (hsize _ hbase).trans h.shape.base_size, h.shape.pos, h.shape.apart, h.shape.brk, ?_, ?_,
    h.shape.freep⟩, h.live, h.fits⟩
  · intro y u hy
    exact (congrArg (· * HEADER) (hsize y (hother y u hy))).trans (h.shape.sizes y u hy)
  · refine h.shape.circle.congr fun y hy => congrArg Header.ptr (hmem y ?_)
    rcases List.mem_cons.mp hy with rfl | hy
    · exact hbase
    · obtain ⟨i, hi⟩ := mem_holes.mp hy
      exact hother y _ hi

theorem step_malloc_mono {nbytes steps steps' : Nat} {granted : Nat → Bool} (hle : steps ≤ steps')
    (h : s.step (.malloc nbytes granted steps) = .ok t) : s.step (.malloc nbytes granted steps') = .ok t := by
  unfold Umalloc.step Umalloc.malloc at h ⊢
  dsimp only at h ⊢
  generalize hm : mallocFrom _ steps _ _ _ _ = r at h
  cases r with
  | none => cases h
  | some r =>
    rw [mallocFrom_mono hle hm]
    exact h

theorem step_free_mono {ap steps steps' : Nat} (hle : steps ≤ steps') (h : s.step (.free ap steps) = .ok t) :
    s.step (.free ap steps') = .ok t := by
  unfold Umalloc.step at h ⊢
  dsimp only at h ⊢
  generalize hf : s.free steps ap = r at h
  cases r with
  | none => cases h
  | some r =>
    rw [free_mono hle hf]
    exact h

theorem Sound.inv_of_live {ap n : Nat} (h : s.Sound) (hap : (ap, n) ∈ s.live) : ∃ ts, s.Inv ts := by
  rcases h with h | h
  · rw [h.live] at hap
    cases hap
  · exact h

theorem Sound.step {a : Act} (h : s.Sound) (hg : s.Legal a) (hs : s.step a = .ok t) : t.Sound := by
  cases a with
  | malloc nbytes granted steps =>
    obtain ⟨t', ht', m, hm⟩ := h.malloc hg granted
    have heq := step_malloc_mono (Nat.le_max_left steps m) hs
    rw [hm _ (Nat.le_max_right steps m)] at heq
    cases heq
    exact ht'
  | free ap steps =>
    obtain ⟨n, hap⟩ := hg
    obtain ⟨ts, hinv⟩ := h.inv_of_live hap
    obtain ⟨t', ht', m, hm⟩ := hinv.free hap
    have heq := step_free_mono (Nat.le_max_left steps m) hs
    rw [hm _ (Nat.le_max_right steps m)] at heq
    cases heq
    exact ht'
  | store ap k x =>
    obtain ⟨n, hap, hk⟩ := hg
    obtain ⟨ts, hinv⟩ := h.inv_of_live hap
    cases hs
    exact .inr ⟨ts, hinv.store hap hk⟩

theorem sound_of_reachable (h : Reachable Umalloc.step Legal Booted s) : s.Sound := by
  refine h.invariant (fun s hs => ?_) fun _ _ _ h hg hs => h.step hg hs
  obtain ⟨mem, base, start, hpos, hle, rfl⟩ := hs
  exact .inl ⟨hpos, hle, rfl, rfl, rfl⟩

/-! ### What the program sees -/

def stop (s : Umalloc) (x : Nat) : Nat := x + s.size x * HEADER

/-- The list from `freep` goes round, through `base`, in the order of addresses, and its blocks neither overlap nor touch. -/
structure FreeList (s : Umalloc) (fs : List Nat) : Prop where
  circle : Cyclic s.ptr (s.base :: fs)
  freep : s.freep ∈ s.base :: fs
  apart : (s.base :: fs).Pairwise fun x y => s.stop x < y

/-- The blocks lie in the heap, do not overlap, and leave nothing of it out. -/
structure Covered (s : Umalloc) (blocks : List Nat) : Prop where
  inside : ∀ b ∈ blocks, s.start ≤ b ∧ s.stop b ≤ s.brk
  disjoint : blocks.Pairwise fun x y => s.stop x ≤ y ∨ s.stop y ≤ x
  cover : ∀ x, s.start ≤ x ∧ x < s.brk ↔ ∃ b ∈ blocks, b ≤ x ∧ x < s.stop b

theorem Shape.stop_eq (h : s.Shape ts) {x : Nat} {u : Tile} (hx : (x, u) ∈ spots s.start ts) : s.stop x = x + u.size :=
  congrArg (x + ·) (h.sizes x u hx)

theorem Shape.freeList (h : s.Shape ts) : s.FreeList (holes s.start ts) := by
  refine ⟨h.circle, h.freep, .cons (fun y hy => ?_) ?_⟩
  · rw [stop, h.base_size, Nat.zero_mul]
    exact h.base_lt.trans_le (hole_bounds h.pos hy).1
  · refine List.pairwise_map.mpr (List.pairwise_filter.mpr ?_)
    refine (h.apart.spots_pairwise h.pos).imp_of_mem fun {x y} hx _ hxy hfree hfree' => ?_
    rw [h.stop_eq hx]
    exact hxy hfree hfree'

theorem Inv.blocks (h : s.Inv ts) : (holes s.start ts ++ s.live.map (·.1 - HEADER)).Perm ((spots s.start ts).map Prod.fst) := by
  have hlive := h.live.map (· - HEADER)
  rw [List.map_map, List.map_map] at hlive
  have hrooms : (rooms s.start ts).map ((· - HEADER) ∘ payload) = ((spots s.start ts).filter fun x => !x.2.free).map Prod.fst := by
    rw [rooms, List.map_map]
    exact List.map_congr_left fun x _ => Nat.add_sub_cancel ..
  rw [hrooms] at hlive
  have hsplit := (List.filter_append_perm (fun x : Nat × Tile => x.2.free) (spots s.start ts)).map Prod.fst
  rw [List.map_append] at hsplit
  exact (hlive.append_left _).trans hsplit

theorem Inv.covered (h : s.Inv ts) : s.Covered (holes s.start ts ++ s.live.map (·.1 - HEADER)) := by
  have hblocks := h.blocks
  have hmem : ∀ {b}, b ∈ holes s.start ts ++ s.live.map (·.1 - HEADER) ↔ ∃ u, (b, u) ∈ spots s.start ts := by
    intro b
    rw [hblocks.mem_iff, List.mem_map]
    exact ⟨fun ⟨x, hx, hb⟩ => ⟨x.2, hb ▸ hx⟩, fun ⟨u, hu⟩ => ⟨(b, u), hu, rfl⟩⟩
  refine ⟨fun b hb => ?_, ?_, fun x => ?_⟩
  · obtain ⟨u, hu⟩ := hmem.mp hb
    rw [h.shape.stop_eq hu, ← h.shape.brk]
    exact spot_bounds hu
  · refine (hblocks.pairwise_iff fun {x y} hxy => hxy.symm).mpr (List.pairwise_map.mpr ?_)
    refine spots_pairwise.imp_of_mem fun {x y} hx _ hxy => .inl ?_
    rw [h.shape.stop_eq hx]
    exact hxy
  · rw [← h.shape.brk, mem_span_iff]
    constructor
    · rintro ⟨⟨b, u⟩, hu, hb⟩
      exact ⟨b, hmem.mpr ⟨u, hu⟩, hb.1, h.shape.stop_eq hu ▸ hb.2⟩
    · rintro ⟨b, hb, hx⟩
      obtain ⟨u, hu⟩ := hmem.mp hb
      exact ⟨(b, u), hu, hx.1, h.shape.stop_eq hu ▸ hx.2⟩

/-- In every run of a program that uses `malloc` and `free` as it should: the free list is a circle in the order of addresses, of
    blocks that do not touch; the free blocks and the blocks in use are all of the heap and do not overlap; each block in use has
    room for what was asked for; and every call of `malloc` and `free` comes to an end. -/
theorem heap_invariant (h : Reachable Umalloc.step Legal Booted s) :
    (∃ fs, (s.freep ≠ 0 → s.FreeList fs) ∧ s.Covered (fs ++ s.live.map (·.1 - HEADER))) ∧
    (∀ ap n, (ap, n) ∈ s.live → HEADER ≤ ap ∧ ap + n ≤ s.stop (ap - HEADER)) ∧
    (∀ nbytes granted, nbytes < 2 ^ 30 → ∃ t m, ∀ steps, m ≤ steps → s.step (.malloc nbytes granted steps) = .ok t) ∧
    ∀ ap n, (ap, n) ∈ s.live → ∃ t m, ∀ steps, m ≤ steps → s.step (.free ap steps) = .ok t := by
  have hsound := sound_of_reachable h
  refine ⟨?_, fun ap n hap => ?_, fun nbytes granted hn => ?_, fun ap n hap => ?_⟩
  · rcases hsound with hfresh | ⟨ts, hinv⟩
    · refine ⟨[], fun hne => absurd hfresh.freep hne, ?_⟩
      rw [hfresh.live]
      refine ⟨(fun b hb => nomatch hb), .nil, fun x => ?_⟩
      rw [hfresh.brk]
      constructor
      · intro hx
        omega
      · rintro ⟨b, hb, -⟩
        cases hb
    · exact ⟨holes s.start ts, fun _ => hinv.shape.freeList, hinv.covered⟩
  · obtain ⟨ts, hinv⟩ := hsound.inv_of_live hap
    obtain ⟨p, k, rfl, hk, hle⟩ := hinv.fits ap n hap
    refine ⟨Nat.le_add_left .., ?_⟩
    rw [Nat.add_sub_cancel, hinv.shape.stop_eq (mem_rooms.mp hk)]
    dsimp only
    omega
  · obtain ⟨t, -, m, hm⟩ := hsound.malloc hn granted
    exact ⟨t, m, hm⟩
  · obtain ⟨ts, hinv⟩ := hsound.inv_of_live hap
    obtain ⟨t, -, m, hm⟩ := hinv.free hap
    exact ⟨t, m, hm⟩

instance (s : Umalloc) : DecidablePred s.Legal
  | .malloc nbytes _ _ => inferInstanceAs (Decidable (nbytes < 2 ^ 30))
  | .free ap _ => decidable_of_iff (∃ x ∈ s.live, x.1 = ap)
      ⟨fun ⟨x, hx, hap⟩ => ⟨x.2, hap ▸ hx⟩, fun ⟨n, hn⟩ => ⟨(ap, n), hn, rfl⟩⟩
  | .store ap k _ => decidable_of_iff (∃ x ∈ s.live, x.1 = ap ∧ HEADER * k < x.2)
      ⟨fun ⟨x, hx, hap, hk⟩ => ⟨x.2, hap ▸ hx, hk⟩, fun ⟨n, hn, hk⟩ => ⟨(ap, n), hn, rfl, hk⟩⟩

/-- The heap is at 4096; two blocks are taken from the end of its 32 KB, and the first is given back. -/
theorem heap_after_free : ∃ s : Umalloc, s.live = [(36832, 10)] ∧ ∃ fs, s.FreeList fs ∧ s.Covered (fs ++ [36824]) := by
  obtain ⟨s, hs, hlive, hfreep⟩ : ∃ s, runList (fun (s : Umalloc) a => if decide (s.Legal a) then s.step a else .sleep)
      { mem := fun _ => ⟨0, 0⟩, base := 64, start := 4096, brk := 4096 }
      [.malloc 3 (fun _ => true) 5, .malloc 10 (fun _ => true) 5, .free 36856 5] = .ok s ∧ s.live = [(36832, 10)] ∧ s.freep ≠ 0 := by
    decide +kernel
  have hreach : Reachable Umalloc.step Legal Booted s :=
    .runGuarded (fun _ _ ha => of_decide_eq_true ha) (.init ⟨_, _, _, by decide, by decide, rfl⟩) hs
  obtain ⟨fs, hlist, hcovered⟩ := (heap_invariant hreach).1
  rw [hlive] at hcovered
  exact ⟨s, hlive, fs, hlist hfreep, hcovered⟩

/-! ### Sizes -/

/-- The block that `malloc` has returned is in the heap, with room for what was asked for. -/
def Room (t : Umalloc) (ap nbytes : Nat) : Prop :=
  t.start + HEADER ≤ ap ∧ ap + nbytes ≤ t.stop (ap - HEADER) ∧ t.stop (ap - HEADER) ≤ t.brk

/-- `malloc` calls `sbrk`: if that fails, so does `malloc`. -/
def Asks (s : Umalloc) (nbytes : Nat) : Prop := ∃ steps t, s.malloc steps nbytes (fun _ => false) = some (none, t)

/-- The number of units is right, and the number of bytes if `sbrk` is called. -/
def Exact (s : Umalloc) (nbytes : Nat) : Prop :=
  nunits nbytes = (nbytes + HEADER - 1) / HEADER + 1 ∧
    (s.Asks nbytes → (sbrkArg (nunits nbytes)).toInt = (max 4096 (nunits nbytes) * HEADER : Nat))

theorem init_start (s : Umalloc) : s.init.start = s.start ∧ s.init.brk = s.brk := by
  unfold Umalloc.init
  split <;> exact ⟨rfl, rfl⟩

theorem Sound.asks {nbytes : Nat} (h : s.Sound) (hlarge : s.brk ≤ nunits nbytes * HEADER) : s.Asks nbytes := by
  obtain ⟨ts, hinv⟩ := h.init
  obtain ⟨xs, hchain, hxs, hperm⟩ := hinv.shape.from_freep
  rcases mallocFrom_walk (nunits nbytes) (fun _ => false) hchain hxs with ⟨q, hq, hqsize, -⟩ | ⟨-, hask⟩
  · obtain ⟨p, ts', -, hshape, hsame, hrooms⟩ := hinv.shape.take (hperm.mem_iff.mp hq) (show 0 < nunits nbytes from Nat.succ_pos _) hqsize
    obtain ⟨hlo, hhi⟩ := spot_bounds (mem_rooms.mp (hrooms.mem_iff.mpr List.mem_cons_self))
    have hbrk := hshape.brk
    have hbase := hinv.shape.base_lt
    rw [hsame.brk, (init_start s).2, hsame.start] at hbrk
    dsimp only at hlo hhi
    omega
  · exact ⟨0 + xs.length + 1, s.init, by rw [Umalloc.malloc, hask, ask]; rfl⟩

/-- In every heap that is in order, `malloc` computes and returns what it should exactly if no more than 2^31 - 16 bytes are
    asked for. -/
theorem malloc_enough_iff (h : s.Sound) (hbrk : s.brk ≤ 2 ^ 31) (nbytes : Nat) (hn : nbytes < 2 ^ 32) :
    (s.Exact nbytes ∧ ∀ granted, ∃ r t m, (∀ steps, m ≤ steps → s.malloc steps nbytes granted = some (r, t)) ∧
      ∀ ap, r = some ap → t.Room ap nbytes) ↔ nbytes ≤ 2 ^ 31 - 16 := by
  constructor
  · rintro ⟨⟨hunits, hsbrk⟩, -⟩
    by_contra hlarge
    have hmany : 2 ^ 31 ≤ nunits nbytes * HEADER := by
      simp only [nunits, HEADER] at hunits ⊢
      omega
    have harg := hsbrk (h.asks (hbrk.trans hmany))
    have hint := Int32.toInt_lt (sbrkArg (nunits nbytes))
    simp only [HEADER] at harg hmany
    omega
  · intro hle
    obtain ⟨hpos, hlt, hfit⟩ := nunits_spec hle
    refine ⟨⟨?_, fun _ => ?_⟩, fun granted => ?_⟩
    · simp only [nunits, HEADER]
      omega
    · have hmax : (if nunits nbytes < 4096 then 4096 else nunits nbytes) = max 4096 (nunits nbytes) := by
        split <;> omega
      rw [sbrkArg, hmax, Int32.toInt_ofNat_of_lt]
      simp only [nunits, HEADER]
      omega
    · obtain ⟨ts, hinv⟩ := h.init
      obtain ⟨r, t, halloc, m, hm⟩ := hinv.shape.mallocFrom hpos hlt granted
      obtain ⟨ts', hshape, hrooms⟩ := halloc.shape
      refine ⟨r, t, m, hm, ?_⟩
      rintro ap rfl
      obtain ⟨p, rfl, hrooms⟩ := hrooms
      have hspot := mem_rooms.mp (hrooms.mem_iff.mpr List.mem_cons_self)
      rw [← halloc.start] at hspot
      obtain ⟨hlo, hhi⟩ := spot_bounds hspot
      rw [hshape.brk] at hhi
      have hstop := hshape.stop_eq hspot
      dsimp only at hhi hstop
      refine ⟨by omega, ?_, ?_⟩
      · rw [Nat.add_sub_cancel, hstop]
        omega
      · rw [Nat.add_sub_cancel, hstop]
        exact hhi

def emptyHeap : Umalloc := { mem := fun _ => ⟨0, 0⟩, base := 64, start := 4096, brk := 4096 }

theorem emptyHeap_sound : emptyHeap.Sound := .inl ⟨by decide, by decide, rfl, rfl, rfl⟩

theorem malloc_enough_ten : emptyHeap.Exact 10 :=
  ((malloc_enough_iff emptyHeap_sound (by decide) 10 (by decide)).mpr (by decide)).1

/-- For 2^32 - 1 bytes `malloc` returns the end of the heap, behind a header. -/
theorem malloc_returns_nothing : emptyHeap.Sound ∧ ∃ t, emptyHeap.malloc 5 (2 ^ 32 - 1) (fun _ => true) = some (some t.brk, t) ∧
    t.stop (t.brk - HEADER) = t.brk := by
  have htest : ((emptyHeap.malloc 5 (2 ^ 32 - 1) fun _ => true).any fun r => r.1 == some r.2.brk && r.2.stop (r.2.brk - HEADER) == r.2.brk) =
      true := by
    decide +kernel
  obtain ⟨⟨r, t⟩, ht, htest⟩ := (Option.any_eq_true _ _).mp htest
  simp only [Bool.and_eq_true, beq_iff_eq] at htest
  obtain ⟨rfl, hstop⟩ := htest
  exact ⟨emptyHeap_sound, t, ht, hstop⟩

end Umalloc
end Xv6
