import Xv6.Theorems.VmGrow

/-! What `growproc` makes of a process, and that an address space can be taken down without losing a page. -/

namespace Xv6
open Outcome (ok_bind pure_eq)
open Slots
open Function (update)

namespace Vm
variable {vm vm' vm₀ : Vm} {d d' d₀ : Pgdir} {v p oldsz newsz : Nat}

/-! ### Without others -/

/-- Without other users of the allocator the calls of `kalloc` find the free list shorter by one page each time. -/
theorem allocuvmFrom_eq_amid (l : List Nat) (left : Nat) : ∀ {k a : Nat} {taken : List Nat} {vm : Vm} {d : Pgdir}, vm.free = l.drop k →
    allocuvmFrom oldsz newsz left vm d a =
      (allocuvmAmidFrom (fun k => l.drop k) oldsz newsz left k taken vm d a >>= fun r => pure (r.1, r.2.2)) := by
  induction left with
  | zero =>
    intro k a taken vm d h
    simp only [allocuvmFrom, allocuvmAmidFrom, ok_bind, pure_eq, ← h]
  | succ left ih =>
    intro k a taken vm d h
    rw [allocuvmFrom, allocuvmAmidFrom]
    by_cases ha : a < newsz
    case neg => simp only [if_neg ha, ok_bind, pure_eq, ← h]
    case pos =>
    have hsucc : ∀ {p free}, l.drop k = p :: free → l.drop (k + 1) = free := fun {p free} hd => by
      rw [← List.drop_drop, hd, List.drop_one, List.tail_cons]
    have hsame : ({ vm with free := l.drop k } : Vm) = vm := by rw [← h]
    rw [if_pos ha, if_pos ha]
    dsimp only
    rw [hsame]
    cases hdata : l.drop k with
    | nil =>
      rw [hdata] at h
      simp only [kalloc, h, pure_eq]
      cases vm.deallocuvm d newsz oldsz <;> rfl
    | cons p free =>
      rw [hdata] at h
      rw [hsucc hdata]
      simp only [kalloc, h, mappages_one]
      by_cases ht : d.table (a / PGSIZE / NPTENTRIES) = none
      · simp only [walkpgdir, ht, Bool.true_eq_false, if_false, kalloc, Option.isSome_none, Bool.false_eq_true]
        cases free with
        | nil =>
          refine ih ?_
          rw [← List.drop_drop, hdata]
          rfl
        | cons t free =>
          simp only [if_true, Option.isSome_none, Bool.false_eq_true, if_false, ok_bind]
          refine ih ?_
          rw [← List.drop_drop, hdata]
          rfl
      · simp only [walkpgdir_of_table ht, Option.isSome_iff_ne_none.mpr ht, if_true]
        split
        · rfl
        · exact ih (hsucc hdata).symm

theorem allocuvm_eq_amid (vm : Vm) (d : Pgdir) (oldsz newsz : Nat) : vm.allocuvm d oldsz newsz =
    (allocuvmAmid (fun k => vm.free.drop k) vm d oldsz newsz >>= fun r => pure (r.1, r.2.2)) := by
  rw [allocuvm, allocuvmAmid]
  split
  · rfl
  · split
    · rfl
    · exact allocuvmFrom_eq_amid vm.free _ List.drop_zero.symm

theorem Supply.of_free (hv : ∀ p ∈ vm.free, Valid vm p) (hn : ((vm.free : Multiset Nat) + d.frames).Nodup) :
    Supply (fun k => vm.free.drop k) vm d := by
  obtain ⟨hfree, -, hdisj⟩ := Multiset.nodup_add.mp hn
  refine ⟨fun k p hp => hv p (List.mem_of_mem_drop hp), fun k p hp => ?_, fun j k p hjk hj hp => ?_⟩
  · rw [Multiset.disjoint_left] at hdisj
    exact hdisj (Multiset.mem_coe.mpr (List.mem_of_mem_drop hp))
  · obtain ⟨rest, hrest⟩ := List.head?_eq_some_iff.mp hj
    have hnd : (vm.free.drop j).Nodup := (Multiset.coe_nodup.mp hfree).sublist (List.drop_sublist j _)
    rw [hrest, List.nodup_cons] at hnd
    refine hnd.1 ?_
    have hsplit : vm.free.drop k = rest.drop (k - (j + 1)) := by
      rw [show k = j + (1 + (k - (j + 1))) by omega, ← List.drop_drop, hrest, ← List.drop_drop, List.drop_one, List.tail_cons]
      congr 1
      omega
    rw [hsplit] at hp
    exact List.mem_of_mem_drop hp

/-! ### What is left of a page, and what a failure leaves -/

theorem mul_lt_of_lt_pgroundup {a u : Nat} (ha : a ≤ KERNBASE) (h : u < pgroundup a / PGSIZE) : u * PGSIZE < a := by
  simp only [pgroundup, KERNBASE, PGSIZE] at *
  omega

/-- The pages below `oldsz` are there and no others, they are different pages of the allocator, and none of them is free. -/
structure Holds (oldsz : Nat) (vm : Vm) (d : Pgdir) : Prop where
  kend : 0 < vm.kend
  backed : d.Backed vm
  lt : oldsz < KERNBASE
  mapped : ∀ v < KERNPAGE, d.pte v ≠ none ↔ v * PGSIZE < oldsz
  free : ∀ p ∈ vm.free, Valid vm p
  nodup : ((vm.free : Multiset Nat) + d.frames).Nodup

theorem Holds.sound (h : Holds oldsz vm d) : d.Sound vm := ⟨h.backed, (Multiset.nodup_add.mp h.nodup).2.1⟩

theorem Holds.supply (h : Holds oldsz vm d) : Supply (fun k => vm.free.drop k) vm d := .of_free h.free h.nodup

theorem Holds.unmapped {u : Nat} (h : Holds oldsz vm d) (hu : pgroundup oldsz / PGSIZE ≤ u) (hk : u < KERNPAGE) : d.pte u = none := by
  by_contra hn
  have := lt_pgroundup_div (Nat.le_of_lt h.lt) ((h.mapped u hk).mp hn)
  omega

def Same (vm : Vm) (d : Pgdir) (vm' : Vm) (d' : Pgdir) : Prop :=
  ∀ v < KERNPAGE, d'.pte v = d.pte v ∧ ∀ e, d.pte v = some e → vm'.mem e.page = vm.mem e.page

/-- The pages below `newsz` are mapped and no others; those that were there are as they were, and the others are zero. -/
def Covers (newsz : Nat) (vm : Vm) (d : Pgdir) (vm' : Vm) (d' : Pgdir) : Prop :=
  (∀ v < KERNPAGE, d'.pte v ≠ none ↔ v * PGSIZE < newsz) ∧
    ∀ v < KERNPAGE, ∀ e, d'.pte v = some e →
      d.pte v = some e ∧ vm'.mem e.page = vm.mem e.page ∨ d.pte v = none ∧ vm'.mem e.page = .zero

/-- The last page needs a page table, and the only free page that is left is taken for the page itself. -/
def LastTableMissing (vm : Vm) (d : Pgdir) (oldsz newsz : Nat) : Prop :=
  ∃ v, Within (pgroundup oldsz / PGSIZE) newsz v ∧ newsz ≤ (v + 1) * PGSIZE ∧ d.Opens (pgroundup oldsz / PGSIZE) v ∧
    vm.free.length = d.calls (pgroundup oldsz / PGSIZE) v + 1

theorem Grown.covers {taken : List Nat} {others : Nat → List Nat} {vm₁ : Vm} (hg : Grown others vm d (pgroundup oldsz / PGSIZE) v taken vm₁ d') (h : Holds oldsz vm d)
    (hS : Supply others vm d) (hle : oldsz ≤ newsz) (hv : newsz ≤ v * PGSIZE)
    (hpages : ∀ u, pgroundup oldsz / PGSIZE ≤ u → u < v → d.pte u = none ∧ u * PGSIZE < newsz) (hmem : vm'.mem = vm₁.mem) :
    Covers newsz vm d vm' d' := by
  have hle' := h.lt
  refine ⟨fun u hu => ?_, fun u hu e he => ?_⟩
  · by_cases hin : pgroundup oldsz / PGSIZE ≤ u ∧ u < v
    · obtain ⟨q, -, hq⟩ := hg.new u hin.1 hin.2
      rw [hq]
      exact iff_of_true (Option.some_ne_none _) (hpages u hin.1 hin.2).2
    · rw [hg.old u hin, h.mapped u hu]
      refine ⟨fun hlt => by omega, fun hlt => ?_⟩
      have huv : u < v := by
        by_contra hge
        have := Nat.mul_le_mul_right PGSIZE (Nat.le_of_not_lt hge)
        omega
      exact mul_lt_of_lt_pgroundup (Nat.le_of_lt h.lt) (by omega)
  · rw [hmem]
    by_cases hin : pgroundup oldsz / PGSIZE ≤ u ∧ u < v
    · obtain ⟨q, hq, hpte⟩ := hg.new u hin.1 hin.2
      rw [he] at hpte
      cases hpte
      exact .inr ⟨(hpages u hin.1 hin.2).1, hg.zero q hq⟩
    · rw [hg.old u hin] at he
      refine .inl ⟨he, hg.mem _ fun hm => ?_⟩
      obtain ⟨k, hk⟩ := hg.taken_mem hm
      exact hS.apart k _ hk (Pgdir.mem_frames.mpr ⟨u, e, hu, he, rfl⟩)

theorem Freed.mem_same {oldsz v u : Nat} {e : Pte} (hf : Freed v oldsz vm d vm' d') (hn : ((vm.free : Multiset Nat) + d.frames).Nodup)
    (hu : u < KERNPAGE) (he : d'.pte u = some e) : vm'.mem e.page = vm.mem e.page := by
  rw [← hf.pages] at hn
  have hdisj := (Multiset.nodup_add.mp hn).2.2
  rw [Multiset.disjoint_left] at hdisj
  exact hf.mem _ fun hm => hdisj (Multiset.mem_coe.mpr hm) (Pgdir.mem_frames.mpr ⟨u, e, hu, he, rfl⟩)

theorem Grown.same {taken : List Nat} {others : Nat → List Nat} {vm₁ : Vm} {d₁ : Pgdir} (vm₂ : Vm)
    (hg : Grown others vm d (pgroundup oldsz / PGSIZE) v taken vm₁ d₁) (h : Holds oldsz vm d) (hS : Supply others vm d)
    (hlt : oldsz < newsz) (hsz : newsz < KERNBASE) (hv : ∀ u, u < v → u * PGSIZE < newsz) (hkend : vm₂.kend = vm₁.kend)
    (hfree : vm₂.free = []) (hmem : ∀ q ∈ d.frames, vm₂.mem q = vm₁.mem q) :
    ∃ vm' d', deallocuvm vm₂ d₁ newsz oldsz = .ok (oldsz, vm', d') ∧ Same vm d vm' d' := by
  have hunmapped : ∀ u, Within (pgroundup oldsz / PGSIZE) newsz u → d.pte u = none := fun u hu =>
    h.unmapped hu.1 (mul_pgsize_lt hu.2 (Nat.le_of_lt hsz))
  obtain ⟨vm', d', hr, hf, hgone, hkept⟩ := hg.dealloc vm₂ hS h.sound h.kend hlt (Nat.le_of_lt hsz)
    (fun _ u hu hn => absurd (hunmapped u hu) hn) hv hkend
  have hpte : ∀ u, d'.pte u = d.pte u := fun u => by
    by_cases hu : Within (pgroundup oldsz / PGSIZE) newsz u
    · rw [hgone u hu, hunmapped u hu]
    · exact hkept u hu
  refine ⟨vm', d', hr, fun u hu => ⟨hpte u, fun e he => ?_⟩⟩
  have hin : e.page ∈ d.frames := Pgdir.mem_frames.mpr ⟨u, e, hu, he, rfl⟩
  have hnodup : ((vm₂.free : Multiset Nat) + d₁.frames).Nodup := by
    rw [hfree, Multiset.coe_nil, zero_add]
    exact (hg.sound hS h.sound).nodup
  rw [hf.mem_same hnodup hu ((hpte u).trans he), hmem _ hin]
  refine hg.mem _ fun hm => ?_
  obtain ⟨k, hk⟩ := hg.taken_mem hm
  exact hS.apart k _ hk hin

theorem Holds.allocuvm (h : Holds oldsz vm d) (hle : oldsz ≤ newsz) (hsz : newsz < KERNBASE) :
    ∃ r vm' d', vm.allocuvm d oldsz newsz = .ok (r, vm', d') ∧
      (¬LastTableMissing vm d oldsz newsz ∧ (r = newsz ∧ Covers newsz vm d vm' d' ∨ r = 0 ∧ Same vm d vm' d') ∨
        LastTableMissing vm d oldsz newsz ∧ r = newsz ∧ ∃ u < KERNPAGE, u * PGSIZE < newsz ∧ d'.pte u = none) := by
  have hS := h.supply
  have hunmapped : ∀ u, Within (pgroundup oldsz / PGSIZE) newsz u → d.pte u = none := fun u hu =>
    h.unmapped hu.1 (mul_pgsize_lt hu.2 (Nat.le_of_lt hsz))
  obtain ⟨left, v, taken, vm₁, d₁, harr, hstop⟩ := (Arrives.of_amid h.backed.sparse hle hsz).stop hS (Nat.le_of_lt hsz)
  have hg := harr.grown
  have hbelow : v * PGSIZE < newsz → ∀ u, u < v → u * PGSIZE < newsz := fun hlt u hu =>
    lt_of_le_of_lt (Nat.mul_le_mul_right PGSIZE (Nat.le_of_lt hu)) hlt
  -- if the last page table is missing the loop stops there
  have hmissing : LastTableMissing vm d oldsz newsz →
      v * PGSIZE < newsz ∧ newsz ≤ (v + 1) * PGSIZE ∧ vm.free.length = d.calls (pgroundup oldsz / PGSIZE) v + 1 := by
    rintro ⟨u, hu, hlast, ho, hlen⟩
    have hvu : v = u := harr.at_noTable hstop hunmapped hu ho (fun j hj hno => by
      have := List.drop_eq_nil_iff.mp hno
      omega) (List.drop_eq_nil_iff.mpr (by omega))
    exact hvu ▸ ⟨hu.2, hlast, hlen⟩
  rw [allocuvm_eq_amid]
  cases hstop with
  | done hv =>
    rw [harr.done hv]
    refine ⟨_, _, _, rfl, .inl ⟨fun hm => ?_, .inl ⟨rfl, hg.covers h hS hle hv harr.unmapped rfl⟩⟩⟩
    have := (hmissing hm).1
    omega
  | noPage hlt hno =>
    have hold := oldsz_lt_of_page ⟨hg.le, hlt⟩ (Nat.le_of_lt hsz) hle
    obtain ⟨vm', d', hr, hsame⟩ := hg.same { vm₁ with free := [] } h hS hold hsz (hbelow hlt) rfl rfl fun _ _ => rfl
    rw [harr.noPage hlt hno, hr]
    refine ⟨0, vm', d', rfl, .inl ⟨fun hm => ?_, .inr ⟨rfl, hsame⟩⟩⟩
    have := (hmissing hm).2.2
    have := List.drop_eq_nil_iff.mp hno
    omega
  | mapped hlt hp hm => exact absurd (hunmapped v ⟨hg.le, hlt⟩) hm
  | noTable hlt hp hn ho hno =>
    have hold := oldsz_lt_of_page ⟨hg.le, hlt⟩ (Nat.le_of_lt hsz) hle
    obtain ⟨q, rest, hdata⟩ := List.exists_cons_of_ne_nil hp
    obtain ⟨left, rfl⟩ := harr.left_pos hlt
    have hlen : vm.free.length = d.calls (pgroundup oldsz / PGSIZE) v + 1 := by
      have := List.drop_eq_nil_iff.mp hno
      have := mt List.drop_eq_nil_iff.mpr hp
      omega
    rw [harr.noTable hlt hdata ho hno]
    by_cases hlast : newsz ≤ (v + 1) * PGSIZE
    · -- it was the last page
      rw [allocuvmAmidFrom_done hlast]
      refine ⟨newsz, _, d₁, rfl, .inr ⟨⟨v, ⟨hg.le, hlt⟩, hlast, ho, hlen⟩, rfl, v, mul_pgsize_lt hlt (Nat.le_of_lt hsz), hlt, ?_⟩⟩
      rw [hg.pte_of_ge (le_refl v), hn]
    · -- the next call finds no page
      have hlast := Nat.lt_of_not_le hlast
      have hq : q ∉ d.frames := hS.apart _ q (hdata ▸ List.mem_cons_self)
      have hempty : vm.free.drop (d.calls (pgroundup oldsz / PGSIZE) v + 2) = [] := List.drop_eq_nil_iff.mpr (by omega)
      obtain ⟨vm', d', hr, hsame⟩ := hg.same { vm₁ with mem := update vm₁.mem q .zero, free := [] } h hS hold hsz
        (hbelow hlt) rfl rfl fun r hr => Function.update_of_ne (by rintro rfl; exact hq hr) _ _
      have hend : allocuvmAmidFrom (fun k => vm.free.drop k) oldsz newsz left (d.calls (pgroundup oldsz / PGSIZE) v + 2) (q :: taken)
          { vm₁ with mem := update vm₁.mem q .zero, free := [] } d₁ ((v + 1) * PGSIZE) = .ok (0, q :: taken, vm', d') := by
        cases left with
        | zero =>
          have := harr.rounds
          rw [Nat.zero_add] at this
          omega
        | succ left =>
          rw [allocuvmAmidFrom, if_pos hlast]
          simp only [kalloc, hempty, hr, ok_bind, pure_eq]
      rw [hend]
      refine ⟨0, vm', d', rfl, .inl ⟨fun hm => ?_, .inr ⟨rfl, hsame⟩⟩⟩
      have := (hmissing hm).2.1
      omega

theorem Same.refl (vm : Vm) (d : Pgdir) : Same vm d vm d := fun _ _ => ⟨rfl, fun _ _ => rfl⟩

theorem Holds.covers (h : Holds oldsz vm d) : Covers oldsz vm d vm d := ⟨h.mapped, fun _ _ _ he => .inl ⟨he, rfl⟩⟩

theorem Holds.deallocuvm (h : Holds oldsz vm d) (hlt : newsz < oldsz) :
    ∃ vm' d', vm.deallocuvm d oldsz newsz = .ok (newsz, vm', d') ∧ Covers newsz vm d vm' d' := by
  have hold := h.lt
  obtain ⟨vm', d', hr, -, hf⟩ := deallocuvm_freed h.kend h.backed hlt (Nat.le_of_lt h.lt)
  have hskip : ∀ u, Within (pgroundup newsz / PGSIZE) oldsz u → d.pte u ≠ none → ¬d.Skipped (pgroundup newsz / PGSIZE) u := by
    intro u hu _
    refine Pgdir.Skipped.table_ne fun ht => ?_
    have hfirst : pgroundup newsz / PGSIZE * PGSIZE < oldsz := lt_of_le_of_lt (Nat.mul_le_mul_right PGSIZE hu.1) hu.2
    exact (h.mapped _ (mul_pgsize_lt hfirst (Nat.le_of_lt h.lt))).mpr hfirst (h.backed.sparse _ ht)
  obtain ⟨hgone, hkept, -⟩ := hf.free_eq hskip
  refine ⟨vm', d', hr, fun u hu => ?_, fun u hu e he => ?_⟩
  · by_cases hin : Within (pgroundup newsz / PGSIZE) oldsz u
    · rw [hgone u hin]
      refine iff_of_false (fun hn => hn rfl) fun hlt' => ?_
      have := lt_pgroundup_div (by omega) hlt'
      have := hin.1
      omega
    · rw [hkept u hin, h.mapped u hu]
      refine ⟨fun hlt' => mul_lt_of_lt_pgroundup (by omega) (Nat.lt_of_not_le fun hle => hin ⟨hle, hlt'⟩), fun hlt' => by omega⟩
  · have hin : ¬Within (pgroundup newsz / PGSIZE) oldsz u := fun hin => by
      rw [hgone u hin] at he
      cases he
    exact .inl ⟨hkept u hin ▸ he, hf.mem_same h.nodup hu he⟩

end Vm

/-! ### `growproc` -/

section Growproc
open Vm
variable {vm : Vm} {p : Proc} {d : Pgdir}

/-- `growproc` changes the size by `n` and has exactly the pages for it, the new ones zero; or it fails and changes nothing
    of what the process sees. -/
def GrowsOrKeeps (vm : Vm) (p : Proc) (d : Pgdir) (n : Int32) : Prop :=
  ∃ r vm' p' d', growproc vm p n = .ok (r, vm', p') ∧ p'.pgdir = some d' ∧
    (r = 0 ∧ 0 ≤ p.sz + n.toInt ∧ p.sz + n.toInt < KERNBASE ∧ p'.sz = p.sz + n.toInt ∧ Covers p'.sz vm d vm' d' ∨
      r = -1 ∧ p'.sz = p.sz ∧ Same vm d vm' d')

theorem growproc_pos {n : Int32} {r : Nat} {vm' : Vm} {d' : Pgdir} (hp : p.pgdir = some d) (hn : 0 < n.toInt)
    (hr : vm.allocuvm d p.sz ((p.sz + n.toInt) % 2 ^ 32).toNat = .ok (r, vm', d')) :
    growproc vm p n =
      .ok (if r = 0 then (-1, vm', { p with pgdir := some d' }) else (0, vm', { p with sz := r, pgdir := some d' })) := by
  simp only [growproc, hp, if_pos hn, hr, ok_bind, pure_eq]

theorem growproc_neg {n : Int32} {r : Nat} {vm' : Vm} {d' : Pgdir} (hp : p.pgdir = some d) (hn : n.toInt < 0)
    (hr : vm.deallocuvm d p.sz ((p.sz + n.toInt) % 2 ^ 32).toNat = .ok (r, vm', d')) :
    growproc vm p n =
      .ok (if r = 0 then (-1, vm', { p with pgdir := some d' }) else (0, vm', { p with sz := r, pgdir := some d' })) := by
  simp only [growproc, hp, if_neg (Int.not_lt.mpr (Int.le_of_lt hn)), if_pos hn, hr, ok_bind, pure_eq]

/-- A process is grown unless the last page stays without a page table. -/
theorem growproc_grow_iff {n : Int32} (hp : p.pgdir = some d) (h : Holds p.sz vm d) (hn : 0 < n.toInt) :
    GrowsOrKeeps vm p d n ↔ (p.sz + n.toInt < KERNBASE → ¬LastTableMissing vm d p.sz (p.sz + n.toInt).toNat) := by
  have hlt := h.lt
  have hmax := Int32.toInt_lt n
  have hmod : (p.sz + n.toInt) % 2 ^ 32 = p.sz + n.toInt := by
    simp only [KERNBASE] at hlt
    omega
  by_cases hsz : p.sz + n.toInt < KERNBASE
  case neg =>
    refine iff_of_true ?_ fun h => absurd h hsz
    have hr : vm.allocuvm d p.sz ((p.sz + n.toInt) % 2 ^ 32).toNat = .ok (0, vm, d) := by
      rw [hmod, allocuvm, if_pos (by omega)]
    exact ⟨-1, vm, _, d, growproc_pos hp hn hr, rfl, .inr ⟨rfl, rfl, .refl vm d⟩⟩
  case pos =>
  obtain ⟨r, vm', d', hr, hcase⟩ := h.allocuvm (show p.sz ≤ (p.sz + n.toInt).toNat by omega) (by omega)
  have hgrow := growproc_pos hp hn (hmod.symm ▸ hr)
  rcases hcase with ⟨hno, hdone | hundone⟩ | ⟨hmiss, hrn, u, hu, hlt', hhole⟩
  · obtain ⟨hrn, hcov⟩ := hdone
    rw [if_neg (by omega)] at hgrow
    refine iff_of_true ⟨0, vm', _, d', hgrow, rfl, .inl ⟨rfl, by omega, hsz, ?_, hrn ▸ hcov⟩⟩ fun _ => hno
    show (r : Int) = _
    omega
  · obtain ⟨hr0, hsame⟩ := hundone
    rw [if_pos hr0] at hgrow
    exact iff_of_true ⟨-1, vm', _, d', hgrow, rfl, .inr ⟨rfl, rfl, hsame⟩⟩ fun _ => hno
  · rw [if_neg (by omega)] at hgrow
    refine iff_of_false ?_ fun hno => hno hsz hmiss
    rintro ⟨r₁, vm₁, p₁, d₁, hr₁, hd₁, hres⟩
    rw [hgrow] at hr₁
    cases hr₁
    cases hd₁
    rcases hres with ⟨-, -, -, -, hcov⟩ | ⟨h, -⟩
    · exact (hcov.1 u hu).mpr (hrn ▸ hlt') hhole
    · cases h

/-- A process is made smaller unless it is to lose all its pages, or more. -/
theorem growproc_shrink_iff {n : Int32} (hp : p.pgdir = some d) (h : Holds p.sz vm d) (hn : n.toInt < 0) :
    GrowsOrKeeps vm p d n ↔ p.sz = 0 ∨ 0 < p.sz + n.toInt := by
  have hlt := h.lt
  have hmin := Int32.le_toInt n
  by_cases hneg : p.sz + n.toInt < 0
  · -- the new size wraps around, and is larger than the old one
    have hmod : (p.sz + n.toInt) % 2 ^ 32 = 2 ^ 32 + (p.sz + n.toInt) := by
      simp only [KERNBASE] at hlt
      omega
    have hr : vm.deallocuvm d p.sz ((p.sz + n.toInt) % 2 ^ 32).toNat = .ok (p.sz, vm, d) := by
      rw [hmod, deallocuvm, if_pos (by simp only [KERNBASE] at hlt; omega)]
    have hgrow := growproc_neg hp hn hr
    by_cases hz : p.sz = 0
    · rw [if_pos hz] at hgrow
      exact iff_of_true ⟨-1, vm, _, d, hgrow, rfl, .inr ⟨rfl, rfl, .refl vm d⟩⟩ (.inl hz)
    · rw [if_neg hz] at hgrow
      refine iff_of_false ?_ (by omega)
      rintro ⟨r₁, vm₁, p₁, d₁, hr₁, -, hres⟩
      rw [hgrow] at hr₁
      cases hr₁
      rcases hres with ⟨-, hge, -⟩ | ⟨h, -⟩
      · omega
      · cases h
  · have hmod : (p.sz + n.toInt) % 2 ^ 32 = p.sz + n.toInt := by
      simp only [KERNBASE] at hlt
      omega
    obtain ⟨vm', d', hr, hcov⟩ := h.deallocuvm (show (p.sz + n.toInt).toNat < p.sz by omega)
    have hgrow := growproc_neg hp hn (hmod.symm ▸ hr)
    rw [hmod] at hgrow
    by_cases hz : (p.sz + n.toInt).toNat = 0
    · -- the pages are gone, and 0 is taken for a failure
      rw [if_pos hz] at hgrow
      refine iff_of_false ?_ (by omega)
      rintro ⟨r₁, vm₁, p₁, d₁, hr₁, hd₁, hres⟩
      rw [hgrow] at hr₁
      cases hr₁
      cases hd₁
      rcases hres with ⟨h, -⟩ | ⟨-, -, hsame⟩
      · cases h
      · have hmap : d.pte 0 ≠ none := (h.mapped 0 (by decide)).mpr (by rw [Nat.zero_mul]; omega)
        rw [← (hsame 0 (by decide)).1] at hmap
        have := (hcov.1 0 (by decide)).mp hmap
        rw [Nat.zero_mul] at this
        omega
    · rw [if_neg hz] at hgrow
      refine iff_of_true ⟨0, vm', _, d', hgrow, rfl, .inl ⟨rfl, by omega, ?_, ?_, hcov⟩⟩ (by omega)
      · simp only [KERNBASE] at hlt ⊢
        omega
      · show (((p.sz + n.toInt).toNat : Nat) : Int) = _
        omega

/-- `growproc` does what it is asked for or nothing, if it finds the last page table that it needs, and does not take
    the last page of the process away. -/
theorem growproc_exact_iff {n : Int32} (hp : p.pgdir = some d) (h : Holds p.sz vm d) :
    GrowsOrKeeps vm p d n ↔
      (0 < n.toInt → p.sz + n.toInt < KERNBASE → ¬LastTableMissing vm d p.sz (p.sz + n.toInt).toNat) ∧
      (n.toInt < 0 → p.sz = 0 ∨ 0 < p.sz + n.toInt) := by
  rcases Int.lt_trichotomy n.toInt 0 with hn | hn | hn
  · rw [growproc_shrink_iff hp h hn]
    exact ⟨fun hs => ⟨fun hpos => absurd hpos (by omega), fun _ => hs⟩, fun hs => hs.2 hn⟩
  · refine iff_of_true ?_ ⟨fun hpos => by omega, fun hneg => by omega⟩
    have hlt := h.lt
    refine ⟨0, vm, p, d, ?_, hp, .inl ⟨rfl, by omega, by omega, by omega, h.covers⟩⟩
    simp only [growproc, hp, hn, Int.lt_irrefl, if_false]
  · rw [growproc_grow_iff hp h hn]
    exact ⟨fun hs => ⟨fun _ => hs, fun hneg => absurd hneg (by omega)⟩, fun hs => hs.1 hn⟩

def onePage : Pgdir := setPte { dir := 2000, table := fun i => if i = 0 then some 2001 else none, pte := fun _ => none } 0
  (some ⟨2002, true, true⟩)

theorem frames_onePage : onePage.frames = {2002} := by
  rw [onePage, Pgdir.frames_fill _ (by decide) rfl]
  exact congrArg _ (held_eq_zero fun _ _ => rfl)

theorem sparse_onePage (v : Nat) (hv : onePage.table (v / NPTENTRIES) = none) : onePage.pte v = none := by
  refine pte_setPte_of_ne _ ?_ _
  rintro rfl
  cases hv

theorem holds_onePage : Holds PGSIZE noMemory onePage := by
  refine ⟨by decide, ⟨sparse_onePage, fun p hp => ?_⟩, by decide, fun v _ => ?_, fun _ h => absurd h List.not_mem_nil, ?_⟩
  · rw [frames_onePage, Multiset.mem_singleton] at hp
    subst hp
    exact ⟨by decide, by decide⟩
  · by_cases hv : v = 0
    · subst hv
      exact iff_of_true (Option.some_ne_none _) (by decide)
    · refine iff_of_false (fun hn => hn (pte_setPte_of_ne _ hv _)) ?_
      simp only [PGSIZE]
      omega
  · rw [frames_onePage]
    exact Multiset.nodup_singleton 2002

theorem growproc_half_page : GrowsOrKeeps noMemory { sz := PGSIZE, pgdir := some onePage } onePage (-2048) :=
  (growproc_exact_iff rfl holds_onePage).mpr ⟨fun h => absurd h (by decide), fun _ => .inr (by decide)⟩

/-- `sbrk` of minus the whole size takes the page away and fails. -/
theorem growproc_to_zero : Holds PGSIZE noMemory onePage ∧
    ¬GrowsOrKeeps noMemory { sz := PGSIZE, pgdir := some onePage } onePage (-4096) := by
  refine ⟨holds_onePage, ?_⟩
  rintro ⟨r, vm', p', d', hr, hd, hres⟩
  have hgrow : growproc noMemory { sz := PGSIZE, pgdir := some onePage } (-4096) =
    .ok (-1, { noMemory with mem := update noMemory.mem 2002 fun _ => 1, free := [2002] },
      { sz := PGSIZE, pgdir := some (setPte onePage 0 none) }) := rfl
  rw [hgrow] at hr
  cases hr
  cases hd
  rcases hres with ⟨h, -⟩ | ⟨-, -, hsame⟩
  · cases h
  · have := (hsame 0 (by decide)).1
    cases this

end Growproc
end Xv6
