import Mathlib.Order.Interval.Finset.Nat
import Xv6.Grow
import Xv6.Theorems.VmFree

/-! Growing an address space. `allocuvm` does not look at what `mappages` returns: when there is a page for the process
    but none for its page table, the page is lost and the loop goes on. -/

namespace Xv6
open Slots
open Function (comp_apply update update_of_ne)
open Outcome (ok_bind)

/-! ### Calls of the allocator -/

namespace Pgdir
variable {d : Pgdir} {v₀ v : Nat}

/-- Page `v` is the first one, from `v₀` on, of a page table that is missing. -/
def Opens (d : Pgdir) (v₀ v : Nat) : Prop :=
  d.table (v / NPTENTRIES) = none ∧ ∀ u, v₀ ≤ u → u < v → u / NPTENTRIES ≠ v / NPTENTRIES

/-- The missing page tables of the pages from `v₀` to before `v`. -/
def openings (d : Pgdir) (v₀ v : Nat) : Finset Nat :=
  ((Finset.Ico v₀ v).image (· / NPTENTRIES)).filter fun i => d.table i = none

/-- The number of calls of `kalloc` for the pages from `v₀` to before `v`. -/
def calls (d : Pgdir) (v₀ v : Nat) : Nat := v - v₀ + (d.openings v₀ v).card

theorem mem_openings {i : Nat} : i ∈ d.openings v₀ v ↔ (∃ u, v₀ ≤ u ∧ u < v ∧ u / NPTENTRIES = i) ∧ d.table i = none := by
  simp only [openings, Finset.mem_filter, Finset.mem_image, Finset.mem_Ico, and_assoc]

theorem calls_self (d : Pgdir) (v : Nat) : d.calls v v = 0 := by
  simp [calls, openings]

theorem openings_succ_of_opens (hv : v₀ ≤ v) (h : d.Opens v₀ v) :
    d.openings v₀ (v + 1) = insert (v / NPTENTRIES) (d.openings v₀ v) := by
  ext i
  rw [Finset.mem_insert, mem_openings, mem_openings]
  constructor
  · rintro ⟨⟨u, hle, hlt, rfl⟩, ht⟩
    by_cases hu : u = v
    · exact .inl (congrArg (· / NPTENTRIES) hu)
    · exact .inr ⟨⟨u, hle, by omega, rfl⟩, ht⟩
  · rintro (rfl | ⟨⟨u, hle, hlt, rfl⟩, ht⟩)
    · exact ⟨⟨v, hv, by omega, rfl⟩, h.1⟩
    · exact ⟨⟨u, hle, by omega, rfl⟩, ht⟩

theorem openings_succ_of_not (h : ¬d.Opens v₀ v) : d.openings v₀ (v + 1) = d.openings v₀ v := by
  ext i
  rw [mem_openings, mem_openings]
  constructor
  · rintro ⟨⟨u, hle, hlt, rfl⟩, ht⟩
    by_cases hu : u = v
    · subst hu
      -- the table is opened by an earlier page
      by_contra hno
      exact h ⟨ht, fun w hw hlt heq => hno ⟨⟨w, hw, hlt, heq⟩, ht⟩⟩
    · exact ⟨⟨u, hle, by omega, rfl⟩, ht⟩
  · rintro ⟨⟨u, hle, hlt, rfl⟩, ht⟩
    exact ⟨⟨u, hle, by omega, rfl⟩, ht⟩

theorem calls_succ_of_opens (hv : v₀ ≤ v) (h : d.Opens v₀ v) : d.calls v₀ (v + 1) = d.calls v₀ v + 2 := by
  have hnot : v / NPTENTRIES ∉ d.openings v₀ v := fun hm => by
    obtain ⟨⟨u, hle, hlt, heq⟩, -⟩ := mem_openings.mp hm
    exact h.2 u hle hlt heq
  rw [calls, calls, openings_succ_of_opens hv h, Finset.card_insert_of_notMem hnot]
  omega

theorem calls_succ_of_not (hv : v₀ ≤ v) (h : ¬d.Opens v₀ v) : d.calls v₀ (v + 1) = d.calls v₀ v + 1 := by
  rw [calls, calls, openings_succ_of_not h]
  omega

theorem tables_congr {d d' : Pgdir} (h : d'.table = d.table) : d'.tables = d.tables := by rw [tables, tables, h]

/-- Where there is no table there is no entry. -/
abbrev Sparse (d : Pgdir) : Prop := ∀ u, d.table (u / NPTENTRIES) = none → d.pte u = none

end Pgdir

namespace Vm
variable {others : Nat → List Nat} {vm vm' vm₀ : Vm} {d d' d₀ : Pgdir} {v₀ v p oldsz newsz : Nat} {taken : List Nat}

theorem walkpgdir_new (vm : Vm) {t : Nat} {free : List Nat} (hv : v / NPTENTRIES < NPTENTRIES) (hs : d.Sparse)
    (ht : d.table (v / NPTENTRIES) = none) (hfree : vm.free = t :: free) :
    ∃ d', vm.walkpgdir d v true = some ({ vm with free := free }, d') ∧ d'.dir = d.dir ∧ d'.pte = d.pte ∧
      d'.table = update d.table (v / NPTENTRIES) (some t) ∧ d'.tables = t ::ₘ d.tables := by
  refine ⟨{ d with
    table := update d.table (v / NPTENTRIES) (some t)
    pte := fun u => if u / NPTENTRIES = v / NPTENTRIES then none else d.pte u }, ?_, rfl, ?_, rfl, ?_⟩
  · simp only [walkpgdir, ht, kalloc, hfree, Bool.true_eq_false, if_false]
  · funext u
    dsimp only
    split
    · rename_i heq
      exact (hs u (heq ▸ ht)).symm
    · rfl
  · exact held_fill (Finset.mem_range.mpr hv) ht

theorem mappages_one (w u : Bool) : mappages w u 1 vm d v p =
    match vm.walkpgdir d v true with
    | none => .ok (false, vm, d)
    | some (vm, d) => if (d.pte v).isSome then .panic "remap" else .ok (true, vm, setPte d v (some ⟨p, w, u⟩)) := rfl

/-- The pages that the calls of `kalloc` may return: each is one of the allocator, that the address space does not use,
    and is not free again after it was taken. -/
structure Supply (others : Nat → List Nat) (vm : Vm) (d : Pgdir) : Prop where
  valid : ∀ k, ∀ p ∈ others k, Valid vm p
  apart : ∀ k, ∀ p ∈ others k, p ∉ d.frames
  once : ∀ j k p, j < k → (others j).head? = some p → p ∉ others k

/-- The pages from `v₀` to before `v` have been added to `d₀`, and no call has failed. -/
structure Grown (others : Nat → List Nat) (vm₀ : Vm) (d₀ : Pgdir) (v₀ v : Nat) (taken : List Nat) (vm : Vm) (d : Pgdir) :
    Prop where
  le : v₀ ≤ v
  kend : vm.kend = vm₀.kend
  data : vm.data = vm₀.data
  dir : d.dir = d₀.dir
  old : ∀ u, ¬(v₀ ≤ u ∧ u < v) → d.pte u = d₀.pte u
  new : ∀ u, v₀ ≤ u → u < v → ∃ p ∈ taken, d.pte u = some ⟨p, true, true⟩
  table : ∀ i, d.table i = none ↔ d₀.table i = none ∧ ∀ u, v₀ ≤ u → u < v → u / NPTENTRIES ≠ i
  sparse : d.Sparse
  heads : ∀ p ∈ taken, ∃ j < d₀.calls v₀ v, (others j).head? = some p
  nodup : taken.Nodup
  frames : d.frames = taken + d₀.frames
  pages : d.pages = held (Finset.range (d₀.calls v₀ v)) (fun j => (others j).head?) + d₀.pages
  zero : ∀ p ∈ taken, vm.mem p = .zero
  mem : ∀ p, p ∉ taken → vm.mem p = vm₀.mem p

theorem Grown.start (hs : d₀.Sparse) (v₀ : Nat) :
    Grown others vm₀ d₀ v₀ v₀ [] vm₀ d₀ where
  le := le_refl v₀
  kend := rfl
  data := rfl
  dir := rfl
  old _ _ := rfl
  new u hle hlt := by omega
  table i := ⟨fun h => ⟨h, fun u hle hlt => by omega⟩, fun h => h.1⟩
  sparse := hs
  heads p hp := absurd hp List.not_mem_nil
  nodup := List.nodup_nil
  frames := (zero_add _).symm
  pages := by
    rw [Pgdir.calls_self]
    exact (zero_add _).symm
  zero p hp := absurd hp List.not_mem_nil
  mem _ _ := rfl

theorem Grown.pte_of_ge {u : Nat} (h : Grown others vm₀ d₀ v₀ v taken vm d) (hu : v ≤ u) : d.pte u = d₀.pte u :=
  h.old u fun hw => by omega

theorem Grown.table_none (h : Grown others vm₀ d₀ v₀ v taken vm d) : d.table (v / NPTENTRIES) = none ↔ d₀.Opens v₀ v :=
  h.table _

theorem Grown.map (d₁ : Pgdir) {k : Nat} (h : Grown others vm₀ d₀ v₀ v taken vm d) (hS : Supply others vm₀ d₀)
    (hp : (others (d₀.calls v₀ v)).head? = some p) (hv : v < KERNPAGE) (hn : d₀.pte v = none)
    (hk : d₀.calls v₀ (v + 1) = k) (hlt : d₀.calls v₀ v < k) (hdir : d₁.dir = d.dir) (hpte : d₁.pte = d.pte)
    (htable : ∀ i, d₁.table i = none ↔ d.table i = none ∧ v / NPTENTRIES ≠ i)
    (hpages : {p} + d₁.tables + held (Finset.range (d₀.calls v₀ v)) (fun j => (others j).head?) =
      d.tables + held (Finset.range k) (fun j => (others j).head?)) (free : List Nat) :
    Grown others vm₀ d₀ v₀ (v + 1) (p :: taken) { vm with mem := update vm.mem p .zero, free := free }
      (setPte d₁ v (some ⟨p, true, true⟩)) := by
  have hmem : p ∈ others (d₀.calls v₀ v) := List.mem_of_mem_head? hp
  have hfresh : p ∉ taken := fun hm => by
    obtain ⟨j, hj, hhead⟩ := h.heads p hm
    exact hS.once j _ p hj hhead hmem
  have hnone : d₁.pte v = none := by rw [hpte, h.pte_of_ge (le_refl v), hn]
  have hframes : (setPte d₁ v (some ⟨p, true, true⟩)).frames = p ::ₘ d.frames := by
    rw [Pgdir.frames_fill _ hv hnone, Pgdir.frames_congr fun u _ => congrFun hpte u]
  constructor
  case le => exact Nat.le_succ_of_le h.le
  case kend => exact h.kend
  case data => exact h.data
  case dir => exact hdir.trans h.dir
  case old =>
    intro u hu
    have := h.le
    rw [pte_setPte_of_ne d₁ (by rintro rfl; exact hu ⟨h.le, Nat.lt_succ_self u⟩), hpte, h.old u fun hw => hu ⟨hw.1, by omega⟩]
  case new =>
    intro u hle hlt
    by_cases huv : u = v
    · subst huv
      exact ⟨p, List.mem_cons_self, pte_setPte_self ..⟩
    · obtain ⟨q, hq, hu⟩ := h.new u hle (by omega)
      exact ⟨q, List.mem_cons_of_mem p hq, by rw [pte_setPte_of_ne d₁ huv, hpte, hu]⟩
  case table =>
    intro i
    rw [setPte, htable i, h.table i]
    constructor
    · rintro ⟨⟨hi, hno⟩, hne⟩
      refine ⟨hi, fun u hle hlt => ?_⟩
      by_cases huv : u = v
      · exact huv ▸ hne
      · exact hno u hle (by omega)
    · rintro ⟨hi, hno⟩
      exact ⟨⟨hi, fun u hle hlt => hno u hle (by omega)⟩, hno v h.le (Nat.lt_succ_self v)⟩
  case sparse =>
    intro u hu
    have hu := (htable _).mp hu
    rw [pte_setPte_of_ne d₁ (by rintro rfl; exact hu.2 rfl), hpte]
    exact h.sparse u hu.1
  case heads =>
    intro q hq
    rcases List.mem_cons.mp hq with rfl | hq
    · exact ⟨_, hk ▸ hlt, hp⟩
    · obtain ⟨j, hj, hhead⟩ := h.heads q hq
      exact ⟨j, by omega, hhead⟩
  case nodup => exact List.nodup_cons.mpr ⟨hfresh, h.nodup⟩
  case frames => rw [hframes, h.frames, ← Multiset.cons_coe, Multiset.cons_add]
  case pages =>
    have hpages₀ := h.pages
    rw [Pgdir.pages, ← Multiset.singleton_add] at hpages₀
    rw [hk, Pgdir.pages, hframes, ← Multiset.singleton_add, ← Multiset.singleton_add]
    refine add_right_cancel (b := held (Finset.range (d₀.calls v₀ v)) fun j => (others j).head?) ?_
    calc {d₁.dir} + (d₁.tables + ({p} + d.frames)) + held (Finset.range (d₀.calls v₀ v)) (fun j => (others j).head?)
        = {d.dir} + d.frames + ({p} + d₁.tables + held (Finset.range (d₀.calls v₀ v)) fun j => (others j).head?) := by
          rw [hdir]
          abel
      _ = held (Finset.range k) (fun j => (others j).head?) + ({d.dir} + (d.tables + d.frames)) := by
          rw [hpages]
          abel
      _ = held (Finset.range k) (fun j => (others j).head?) + d₀.pages +
          held (Finset.range (d₀.calls v₀ v)) (fun j => (others j).head?) := by
          rw [hpages₀]
          abel
  case zero =>
    intro q hq
    by_cases hqp : q = p
    · exact hqp ▸ Function.update_self ..
    · exact (update_of_ne hqp _ _).trans (h.zero q ((List.mem_cons.mp hq).resolve_left hqp))
  case mem =>
    intro q hq
    rw [List.mem_cons, not_or] at hq
    exact (update_of_ne hq.1 _ _).trans (h.mem q hq.2)

theorem held_range_succ {f : Nat → Option Nat} {k : Nat} (h : f k = some p) :
    held (Finset.range (k + 1)) f = {p} + held (Finset.range k) f := by
  rw [held_erase (Finset.mem_range.mpr (Nat.lt_succ_self k)) h, Finset.range_add_one,
    Finset.erase_insert Finset.notMem_range_self, Multiset.singleton_add]

theorem Grown.round (oldsz : Nat) {rest : List Nat} (h : Grown others vm₀ d₀ v₀ v taken vm d) (hS : Supply others vm₀ d₀)
    (hlt : v * PGSIZE < newsz) (hsz : newsz ≤ KERNBASE) (hn : d₀.pte v = none)
    (hdata : others (d₀.calls v₀ v) = p :: rest) (htab : d₀.Opens v₀ v → others (d₀.calls v₀ v + 1) ≠ []) :
    ∃ vm' d', Grown others vm₀ d₀ v₀ (v + 1) (p :: taken) vm' d' ∧
      ∀ left, allocuvmAmidFrom others oldsz newsz (left + 1) (d₀.calls v₀ v) taken vm d (v * PGSIZE) =
        allocuvmAmidFrom others oldsz newsz left (d₀.calls v₀ (v + 1)) (p :: taken) vm' d' ((v + 1) * PGSIZE) := by
  have hv : v < KERNPAGE := mul_pgsize_lt hlt hsz
  have hdiv : v * PGSIZE / PGSIZE = v := Nat.mul_div_cancel v (by decide)
  have hnext : v * PGSIZE + PGSIZE = (v + 1) * PGSIZE := (Nat.succ_mul v PGSIZE).symm
  have hhead : (others (d₀.calls v₀ v)).head? = some p := by rw [hdata, List.head?_cons]
  have hpte : d.pte v = none := by rw [h.pte_of_ge (le_refl v), hn]
  by_cases ho : d₀.Opens v₀ v
  · -- a call for the page, and one for its table
    obtain ⟨t, free, ht⟩ := List.exists_cons_of_ne_nil (htab ho)
    have hnone := h.table_none.mpr ho
    have hidx : v / NPTENTRIES < NPTENTRIES := by
      simp only [KERNPAGE, KERNBASE, PGSIZE, NPTENTRIES] at *
      omega
    obtain ⟨d₁, hw, hdir₁, hpte₁, htable₁, htables₁⟩ := walkpgdir_new
      { vm with mem := update vm.mem p .zero, free := others (d₀.calls v₀ v + 1) } hidx h.sparse hnone ht
    have hcalls := Pgdir.calls_succ_of_opens h.le ho
    refine ⟨_, _, h.map d₁ hS hhead hv hn hcalls (by omega) hdir₁ hpte₁ (fun i => ?_) ?_ free, fun left => ?_⟩
    · rw [htable₁]
      by_cases hi : i = v / NPTENTRIES
      · subst hi
        simp
      · rw [update_of_ne hi]
        exact ⟨fun hi' => ⟨hi', Ne.symm hi⟩, fun hi' => hi'.1⟩
    · have ht' : (others (d₀.calls v₀ v + 1)).head? = some t := by rw [ht, List.head?_cons]
      rw [htables₁, held_range_succ (f := fun j => (others j).head?) ht', held_range_succ (f := fun j => (others j).head?) hhead,
        ← Multiset.singleton_add]
      abel
    · rw [allocuvmAmidFrom, if_pos hlt, hdiv, hnext, hcalls]
      simp only [kalloc, hdata, hnone, mappages_one, hw, hpte₁, hpte, Option.isSome_none, Bool.false_eq_true, if_false]
      rfl
  · -- the table is there
    have hsome : d.table (v / NPTENTRIES) ≠ none := fun hn => ho (h.table_none.mp hn)
    have hcalls := Pgdir.calls_succ_of_not h.le ho
    refine ⟨_, _, h.map d hS hhead hv hn hcalls (by omega) rfl rfl (fun i => ?_) ?_ (others (d₀.calls v₀ v + 1)),
      fun left => ?_⟩
    · exact ⟨fun hi => ⟨hi, fun heq => hsome (heq ▸ hi)⟩, fun hi => hi.1⟩
    · rw [held_range_succ (f := fun j => (others j).head?) hhead]
      abel
    · rw [allocuvmAmidFrom, if_pos hlt, hdiv, hnext, hcalls]
      simp only [kalloc, hdata, Option.isSome_iff_ne_none.mpr hsome, mappages_one, walkpgdir_of_table hsome, hpte,
        Option.isSome_none, Bool.false_eq_true, if_false, if_true]
      rfl

/-- Why the loop does not get behind page `v`: it is done, there is no page, the page is mapped already, or there is no
    page for the page table. -/
inductive Stop (others : Nat → List Nat) (d₀ : Pgdir) (v₀ newsz v : Nat) : Prop
  | done (h : newsz ≤ v * PGSIZE)
  | noPage (hlt : v * PGSIZE < newsz) (h : others (d₀.calls v₀ v) = [])
  | mapped (hlt : v * PGSIZE < newsz) (hp : others (d₀.calls v₀ v) ≠ []) (h : d₀.pte v ≠ none)
  | noTable (hlt : v * PGSIZE < newsz) (hp : others (d₀.calls v₀ v) ≠ []) (hn : d₀.pte v = none) (ho : d₀.Opens v₀ v)
      (h : others (d₀.calls v₀ v + 1) = [])

/-- The loop has got to page `v` without a failure and with `left` rounds to go. -/
structure Arrives (others : Nat → List Nat) (oldsz newsz : Nat) (vm₀ : Vm) (d₀ : Pgdir) (v₀ : Nat)
    (result : Outcome (Nat × List Nat × Vm × Pgdir)) (left v : Nat) (taken : List Nat) (vm : Vm) (d : Pgdir) : Prop where
  grown : Grown others vm₀ d₀ v₀ v taken vm d
  found : ∀ j < d₀.calls v₀ v, others j ≠ []
  unmapped : ∀ u, v₀ ≤ u → u < v → d₀.pte u = none ∧ u * PGSIZE < newsz
  rounds : newsz ≤ (v + left) * PGSIZE
  eq : result = allocuvmAmidFrom others oldsz newsz left (d₀.calls v₀ v) taken vm d (v * PGSIZE)

theorem Arrives.start (others : Nat → List Nat) (oldsz : Nat) (vm₀ : Vm) {left : Nat} (hs : d₀.Sparse)
    (hleft : newsz ≤ (v₀ + left) * PGSIZE) :
    Arrives others oldsz newsz vm₀ d₀ v₀ (allocuvmAmidFrom others oldsz newsz left 0 [] vm₀ d₀ (v₀ * PGSIZE)) left v₀ [] vm₀ d₀ where
  grown := .start hs v₀
  found j hj := by
    rw [Pgdir.calls_self] at hj
    omega
  unmapped u hle hlt := by omega
  rounds := hleft
  eq := by rw [Pgdir.calls_self]

theorem Arrives.stop {result : Outcome (Nat × List Nat × Vm × Pgdir)} (hS : Supply others vm₀ d₀) (hsz : newsz ≤ KERNBASE)
    (left : Nat) : ∀ {v : Nat} {taken : List Nat} {vm : Vm} {d : Pgdir},
      Arrives others oldsz newsz vm₀ d₀ v₀ result left v taken vm d →
      ∃ left v taken vm d, Arrives others oldsz newsz vm₀ d₀ v₀ result left v taken vm d ∧ Stop others d₀ v₀ newsz v := by
  induction left with
  | zero => exact fun {v taken vm d} h => ⟨0, v, taken, vm, d, h, .done h.rounds⟩
  | succ left ih =>
    intro v taken vm d h
    by_cases hlt : v * PGSIZE < newsz
    case neg => exact ⟨_, v, taken, vm, d, h, .done (Nat.le_of_not_lt hlt)⟩
    case pos =>
    cases hdata : others (d₀.calls v₀ v) with
    | nil => exact ⟨_, v, taken, vm, d, h, .noPage hlt hdata⟩
    | cons p rest =>
      have hne : others (d₀.calls v₀ v) ≠ [] := by simp [hdata]
      by_cases hn : d₀.pte v = none
      case neg => exact ⟨_, v, taken, vm, d, h, .mapped hlt hne hn⟩
      case pos =>
      by_cases htab : d₀.Opens v₀ v → others (d₀.calls v₀ v + 1) ≠ []
      case neg =>
        obtain ⟨ho, ht⟩ := Classical.not_imp.mp htab
        exact ⟨_, v, taken, vm, d, h, .noTable hlt hne hn ho (not_not.mp ht)⟩
      case pos =>
      obtain ⟨vm', d', hg, heq⟩ := h.grown.round oldsz hS hlt hsz hn hdata htab
      refine ih ⟨hg, fun j hj => ?_, fun u hle hu => ?_, ?_, ?_⟩
      · by_cases ho : d₀.Opens v₀ v
        · rw [Pgdir.calls_succ_of_opens h.grown.le ho] at hj
          rcases Nat.lt_or_ge j (d₀.calls v₀ v) with hj' | hj'
          · exact h.found j hj'
          · rcases Nat.eq_or_lt_of_le hj' with rfl | hj''
            · exact hne
            · exact (show j = d₀.calls v₀ v + 1 by omega) ▸ htab ho
        · rw [Pgdir.calls_succ_of_not h.grown.le ho] at hj
          rcases Nat.lt_or_ge j (d₀.calls v₀ v) with hj' | hj'
          · exact h.found j hj'
          · exact (show j = d₀.calls v₀ v by omega) ▸ hne
      · by_cases huv : u = v
        · exact huv ▸ ⟨hn, hlt⟩
        · exact h.unmapped u hle (by omega)
      · have := h.rounds
        rwa [Nat.add_assoc, Nat.add_comm 1]
      · rw [h.eq, heq left]

/-! ### How the loop ends -/

theorem Grown.taken_mem (h : Grown others vm₀ d₀ v₀ v taken vm d) (hp : p ∈ taken) :
    ∃ k, p ∈ others k := by
  obtain ⟨j, -, hj⟩ := h.heads p hp
  exact ⟨j, List.mem_of_mem_head? hj⟩

theorem Grown.sound (h : Grown others vm₀ d₀ v₀ v taken vm d) (hS : Supply others vm₀ d₀) (hd : d₀.Sound vm₀) :
    d.Sound vm := by
  refine ⟨⟨h.sparse, fun p hp => ?_⟩, ?_⟩
  · rw [Valid, h.kend]
    rw [h.frames, Multiset.mem_add, Multiset.mem_coe] at hp
    rcases hp with hp | hp
    · obtain ⟨k, hk⟩ := h.taken_mem hp
      exact hS.valid k p hk
    · exact hd.valid p hp
  · rw [h.frames, Multiset.nodup_add]
    refine ⟨Multiset.coe_nodup.mpr h.nodup, hd.nodup, ?_⟩
    rw [Multiset.disjoint_left]
    intro p hp
    rw [Multiset.mem_coe] at hp
    obtain ⟨k, hk⟩ := h.taken_mem hp
    exact hS.apart k p hk

/-- Every page of the range is there, with a page of its own that is all zero. -/
def Complete (v₀ newsz : Nat) (vm : Vm) (d : Pgdir) : Prop :=
  ∀ u, Within v₀ newsz u → ∃ p, d.pte u = some ⟨p, true, true⟩ ∧ vm.mem p = .zero ∧
    ∀ w e, w < KERNPAGE → d.pte w = some e → e.page = p → w = u

/-- No page of the range is there, what is below `oldsz` is as it was, and the pages that were taken are free again. -/
def Undone (oldsz newsz : Nat) (d₀ : Pgdir) (taken : List Nat) (vm : Vm) (d : Pgdir) : Prop :=
  (∀ u, Within (pgroundup oldsz / PGSIZE) newsz u → d.pte u = none) ∧ (∀ u, u * PGSIZE < oldsz → d.pte u = d₀.pte u) ∧
    ∀ p ∈ taken, p ∈ vm.free

theorem Grown.complete (h : Grown others vm₀ d₀ v₀ v taken vm d) (hS : Supply others vm₀ d₀) (hd : d₀.Sound vm₀)
    (hsz : newsz ≤ KERNBASE) (hv : newsz ≤ v * PGSIZE) : Complete v₀ newsz vm d := by
  intro u hu
  have huv : u < v := by
    by_contra hle
    have := Nat.mul_le_mul_right PGSIZE (Nat.le_of_not_lt hle)
    have := hu.2
    omega
  obtain ⟨p, hp, hpte⟩ := h.new u hu.1 huv
  refine ⟨p, hpte, h.zero p hp, fun w e hw he hep => ?_⟩
  have hnodup : (held (Finset.range KERNPAGE) (Option.map Pte.page ∘ d.pte)).Nodup := (h.sound hS hd).nodup
  refine eq_of_nodup hnodup (Finset.mem_range.mpr hw) (Finset.mem_range.mpr (mul_pgsize_lt hu.2 hsz)) (b := p) ?_ ?_
  · rw [comp_apply, he, Option.map_some, hep]
  · rw [comp_apply, hpte, Option.map_some]

theorem pgroundup_le {a : Nat} (h : a ≤ KERNBASE) : a ≤ pgroundup a := by
  simp only [pgroundup, KERNBASE, PGSIZE] at *
  omega

theorem lt_pgroundup_div {a u : Nat} (ha : a ≤ KERNBASE) (h : u * PGSIZE < a) : u < pgroundup a / PGSIZE := by
  simp only [pgroundup, KERNBASE, PGSIZE] at *
  omega

theorem Grown.dealloc (vm₁ : Vm) (h : Grown others vm₀ d₀ (pgroundup oldsz / PGSIZE) v taken vm d) (hS : Supply others vm₀ d₀)
    (hd : d₀.Sound vm₀) (hkend : 0 < vm₀.kend) (hlt : oldsz < newsz) (hsz : newsz ≤ KERNBASE)
    (hskip : v = pgroundup oldsz / PGSIZE → ∀ u, Within (pgroundup oldsz / PGSIZE) newsz u → d₀.pte u ≠ none →
      ¬d₀.Skipped (pgroundup oldsz / PGSIZE) u) (hv : ∀ u, u < v → u * PGSIZE < newsz)
    (hvm : vm₁.kend = vm.kend) :
    ∃ vm' d', deallocuvm vm₁ d newsz oldsz = .ok (oldsz, vm', d') ∧ Freed (pgroundup oldsz / PGSIZE) newsz vm₁ d vm' d' ∧
      (∀ u, Within (pgroundup oldsz / PGSIZE) newsz u → d'.pte u = none) ∧
      ∀ u, ¬Within (pgroundup oldsz / PGSIZE) newsz u → d'.pte u = d₀.pte u := by
  have hsound : d.Backed vm₁ := ⟨h.sparse, fun p hp => by
    have := (h.sound hS hd).valid p hp
    rwa [Valid, hvm]⟩
  obtain ⟨vm', d', hr, -, hf⟩ := deallocuvm_freed (by rw [hvm, h.kend]; exact hkend) hsound hlt hsz
  have hs : ∀ u, Within (pgroundup oldsz / PGSIZE) newsz u → d.pte u ≠ none → ¬d.Skipped (pgroundup oldsz / PGSIZE) u := by
    intro u hu hn
    by_cases hvv : v = pgroundup oldsz / PGSIZE
    · -- nothing has been added
      have htable : ∀ i, d.table i = none ↔ d₀.table i = none := fun i =>
        (h.table i).trans (and_iff_left fun w hle hlt => by omega)
      have hpte : d.pte u = d₀.pte u := h.old u fun hw => by omega
      intro hs
      exact hskip hvv u hu (hpte ▸ hn) ⟨hs.1, fun i hi hi' => (htable i).mp (hs.2.1 i hi hi'), hs.2.2⟩
    · have hlt' := lt_of_le_of_ne h.le (Ne.symm hvv)
      exact Pgdir.Skipped.table_ne fun hn => ((h.table _).mp hn).2 _ (le_refl _) hlt' rfl
  obtain ⟨hgone, hkept, -⟩ := hf.free_eq hs
  refine ⟨vm', d', hr, hf, hgone, fun u hu => ?_⟩
  rw [hkept u hu, h.old u fun hw => hu ⟨hw.1, hv u hw.2⟩]

theorem Grown.undo (h : Grown others vm₀ d₀ (pgroundup oldsz / PGSIZE) v taken vm d) (hS : Supply others vm₀ d₀)
    (hd : d₀.Sound vm₀) (hkend : 0 < vm₀.kend) (hlt : oldsz < newsz) (hsz : newsz ≤ KERNBASE)
    (hskip : v = pgroundup oldsz / PGSIZE → ∀ u, Within (pgroundup oldsz / PGSIZE) newsz u → d₀.pte u ≠ none →
      ¬d₀.Skipped (pgroundup oldsz / PGSIZE) u) (hv : ∀ u, u < v → u * PGSIZE < newsz) :
    ∃ vm' d', deallocuvm { vm with free := [] } d newsz oldsz = .ok (oldsz, vm', d') ∧ Undone oldsz newsz d₀ taken vm' d' := by
  obtain ⟨vm', d', hr, hf, hgone, hkept⟩ := h.dealloc { vm with free := [] } hS hd hkend hlt hsz hskip hv rfl
  refine ⟨vm', d', hr, hgone, fun u hu => ?_, fun p hp => ?_⟩
  · have := lt_pgroundup_div (by omega) hu
    exact hkept u fun hw => by have := hw.1; omega
  · have hmem : p ∈ (vm'.free : Multiset Nat) + d'.frames := by
      rw [hf.pages, h.frames]
      exact Multiset.mem_add.mpr (.inr (Multiset.mem_add.mpr (.inl (Multiset.mem_coe.mpr hp))))
    rcases Multiset.mem_add.mp hmem with hm | hm
    · exact Multiset.mem_coe.mp hm
    · -- a page that is still mapped was mapped before
      obtain ⟨w, e, hw, he, rfl⟩ := Pgdir.mem_frames.mp hm
      have hout : ¬Within (pgroundup oldsz / PGSIZE) newsz w := fun hin => by
        rw [hgone w hin] at he
        cases he
      rw [hkept w hout] at he
      obtain ⟨k, hk⟩ := h.taken_mem hp
      exact absurd (Pgdir.mem_frames.mpr ⟨w, e, hw, he, rfl⟩) (hS.apart k _ hk)

theorem allocuvmAmidFrom_done {left k a : Nat} (h : newsz ≤ a) :
    allocuvmAmidFrom others oldsz newsz left k taken vm d a = .ok (newsz, taken, { vm with free := others k }, d) := by
  cases left with
  | zero => rfl
  | succ left => rw [allocuvmAmidFrom, if_neg (Nat.not_lt.mpr h)]

section Ends
variable {result : Outcome (Nat × List Nat × Vm × Pgdir)} {left : Nat}

section
variable (h : Arrives others oldsz newsz vm₀ d₀ v₀ result left v taken vm d)
include h

theorem Arrives.left_pos (hlt : v * PGSIZE < newsz) :
    ∃ l, left = l + 1 := by
  cases left with
  | zero =>
    have := h.rounds
    rw [Nat.add_zero] at this
    omega
  | succ l => exact ⟨l, rfl⟩

theorem Arrives.done (hv : newsz ≤ v * PGSIZE) :
    result = .ok (newsz, taken, { vm with free := others (d₀.calls v₀ v) }, d) := by
  rw [h.eq, allocuvmAmidFrom_done hv]

theorem Arrives.noPage (hlt : v * PGSIZE < newsz)
    (hno : others (d₀.calls v₀ v) = []) :
    result = (deallocuvm { vm with free := [] } d newsz oldsz >>= fun r => pure (0, taken, r.2)) := by
  obtain ⟨l, rfl⟩ := h.left_pos hlt
  rw [h.eq, allocuvmAmidFrom, if_pos hlt]
  simp only [kalloc, hno]

theorem Arrives.mapped (hlt : v * PGSIZE < newsz)
    (hp : others (d₀.calls v₀ v) ≠ []) (hm : d₀.pte v ≠ none) : result = .panic "remap" := by
  obtain ⟨l, rfl⟩ := h.left_pos hlt
  obtain ⟨p, rest, hdata⟩ := List.exists_cons_of_ne_nil hp
  have hdiv : v * PGSIZE / PGSIZE = v := Nat.mul_div_cancel v (by decide)
  have hpte : d.pte v ≠ none := by rwa [h.grown.pte_of_ge (le_refl v)]
  have htable : d.table (v / NPTENTRIES) ≠ none := fun hn => hpte (h.grown.sparse v hn)
  rw [h.eq, allocuvmAmidFrom, if_pos hlt, hdiv]
  simp only [kalloc, hdata, mappages_one, walkpgdir_of_table htable, Option.isSome_iff_ne_none.mpr hpte, if_true,
    Outcome.panic_bind]

end

theorem Arrives.noTable {rest : List Nat} (h : Arrives others oldsz newsz vm₀ d₀ v₀ result (left + 1) v taken vm d)
    (hlt : v * PGSIZE < newsz) (hdata : others (d₀.calls v₀ v) = p :: rest) (ho : d₀.Opens v₀ v)
    (hno : others (d₀.calls v₀ v + 1) = []) :
    result = allocuvmAmidFrom others oldsz newsz left (d₀.calls v₀ v + 2) (p :: taken)
      { vm with mem := update vm.mem p .zero, free := [] } d ((v + 1) * PGSIZE) := by
  have hdiv : v * PGSIZE / PGSIZE = v := Nat.mul_div_cancel v (by decide)
  have hnone := h.grown.table_none.mpr ho
  rw [h.eq, allocuvmAmidFrom, if_pos hlt, hdiv, ← Nat.succ_mul]
  simp only [kalloc, hdata, hno, mappages_one, walkpgdir, hnone, Option.isSome_none, Bool.false_eq_true, Bool.true_eq_false,
    if_false, ok_bind]

end Ends

theorem calls_mono {w : Nat} (d : Pgdir) (v₀ : Nat) (h : v ≤ w) : d.calls v₀ v ≤ d.calls v₀ w := by
  have hsub : d.openings v₀ v ⊆ d.openings v₀ w := fun i hi => by
    obtain ⟨⟨u, hle, hlt, heq⟩, ht⟩ := Pgdir.mem_openings.mp hi
    exact Pgdir.mem_openings.mpr ⟨⟨u, hle, by omega, heq⟩, ht⟩
  have := Finset.card_le_card hsub
  rw [Pgdir.calls, Pgdir.calls]
  omega

/-- Page `p` was taken for page `v` of the process, which it has not got; the loop is at page `w`. -/
structure Lost (others : Nat → List Nat) (newsz v p k w : Nat) (taken : List Nat) (vm : Vm) (d : Pgdir) : Prop where
  kend : 0 < vm.kend
  backed : d.Backed vm
  valid : ∀ k, ∀ q ∈ others k, Valid vm q
  head : ∃ j < k, (others j).head? = some p
  mem : p ∈ taken
  frames : p ∉ d.frames
  hole : d.pte v = none
  behind : v < w
  rest : ∀ u, Within w newsz u → d.pte u = none

theorem Lost.map {q k' w : Nat} {mem : Nat → Page} {free : List Nat} {d₁ : Pgdir} {k : Nat} (hl : Lost others newsz v p k w taken vm d)
    (once : ∀ j k p, j < k → (others j).head? = some p → p ∉ others k) (hq : q ∈ others k) (hw : w < KERNPAGE) (hk : k ≤ k')
    (hpte : d₁.pte = d.pte) (htable : ∀ i, d₁.table i = none → d.table i = none) (hown : d₁.table (w / NPTENTRIES) ≠ none)
    (hwn : d.pte w = none) :
    Lost others newsz v p k' (w + 1) (q :: taken) { vm with mem := mem, free := free } (setPte d₁ w (some ⟨q, true, true⟩)) := by
  obtain ⟨j, hj, hhead⟩ := hl.head
  have hne : p ≠ q := by
    rintro rfl
    exact once j k p hj hhead hq
  have hframes : (setPte d₁ w (some ⟨q, true, true⟩)).frames = q ::ₘ d.frames := by
    rw [Pgdir.frames_fill _ hw (by rw [hpte, hwn]), Pgdir.frames_congr fun u _ => congrFun hpte u]
  refine ⟨hl.kend, ⟨fun u hu => ?_, fun r hr => ?_⟩, hl.valid, ⟨j, by omega, hhead⟩, List.mem_cons_of_mem q hl.mem, ?_, ?_, ?_,
    fun u hu => ?_⟩
  · rw [pte_setPte_of_ne d₁ (by rintro rfl; exact hown hu), hpte]
    exact hl.backed.sparse u (htable _ hu)
  · rw [hframes, Multiset.mem_cons] at hr
    rcases hr with rfl | hr
    · exact hl.valid k r hq
    · exact hl.backed.valid r hr
  · rw [hframes, Multiset.mem_cons]
    exact fun h => h.elim hne hl.frames
  · have := hl.behind
    rw [pte_setPte_of_ne d₁ (by omega), hpte, hl.hole]
  · have := hl.behind
    omega
  · have := hu.1
    rw [pte_setPte_of_ne d₁ (by omega), hpte, hl.rest u ⟨by omega, hu.2⟩]

/-- Whatever comes, the page stays missing, or the one that was taken for it is not given back. -/
theorem Lost.result (once : ∀ j k p, j < k → (others j).head? = some p → p ∉ others k) (hlt : oldsz < newsz)
    (hsz : newsz ≤ KERNBASE) (left : Nat) : ∀ {k w : Nat} {taken : List Nat} {vm : Vm} {d : Pgdir},
      Lost others newsz v p k w taken vm d →
      ∃ r taken' vm' d', allocuvmAmidFrom others oldsz newsz left k taken vm d (w * PGSIZE) = .ok (r, taken', vm', d') ∧
        (r = newsz ∧ d'.pte v = none ∨ r = 0 ∧ p ∈ taken' ∧ p ∉ vm'.free) := by
  induction left with
  | zero => exact fun {k w taken vm d} hl => ⟨newsz, taken, _, d, rfl, .inl ⟨rfl, hl.hole⟩⟩
  | succ left ih =>
    intro k w taken vm d hl
    rw [allocuvmAmidFrom]
    by_cases hwlt : w * PGSIZE < newsz
    case neg => exact ⟨newsz, taken, _, d, if_neg hwlt, .inl ⟨rfl, hl.hole⟩⟩
    case pos =>
    have hdiv : w * PGSIZE / PGSIZE = w := Nat.mul_div_cancel w (by decide)
    have hnext : w * PGSIZE + PGSIZE = (w + 1) * PGSIZE := (Nat.succ_mul w PGSIZE).symm
    have hw : w < KERNPAGE := mul_pgsize_lt hwlt hsz
    have hwn : d.pte w = none := hl.rest w ⟨le_refl w, hwlt⟩
    rw [if_pos hwlt, hdiv, hnext]
    cases hdata : others k with
    | nil =>
      have hbacked : d.Backed { vm with free := [] } := ⟨hl.backed.sparse, hl.backed.valid⟩
      have hkend : 0 < ({ vm with free := [] } : Vm).kend := hl.kend
      obtain ⟨vm', d', hr, -, hf⟩ := deallocuvm_freed hkend hbacked hlt hsz
      simp only [kalloc, hr, ok_bind, Outcome.pure_eq]
      refine ⟨0, taken, vm', d', rfl, .inr ⟨rfl, hl.mem, fun hfree => hl.frames ?_⟩⟩
      have hmem : p ∈ (vm'.free : Multiset Nat) + d'.frames := Multiset.mem_add.mpr (.inl (Multiset.mem_coe.mpr hfree))
      rw [hf.pages] at hmem
      exact (Multiset.mem_add.mp hmem).resolve_left (by simp)
    | cons q rest =>
      have hq : q ∈ others k := hdata ▸ List.mem_cons_self
      by_cases ht : d.table (w / NPTENTRIES) = none
      · cases htab : others (k + 1) with
        | nil =>
          -- no page for the table: another page is lost
          simp only [kalloc, mappages_one, walkpgdir, ht, Option.isSome_none, Bool.false_eq_true, Bool.true_eq_false, if_false,
            ok_bind]
          obtain ⟨j, hj, hhead⟩ := hl.head
          exact ih ⟨hl.kend, ⟨hl.backed.sparse, hl.backed.valid⟩, hl.valid, ⟨j, by omega, hhead⟩, List.mem_cons_of_mem q hl.mem,
            hl.frames, hl.hole, Nat.lt_succ_of_lt hl.behind, fun u hu => hl.rest u ⟨by have := hu.1; omega, hu.2⟩⟩
        | cons t free =>
          have hidx : w / NPTENTRIES < NPTENTRIES := by
            simp only [KERNPAGE, KERNBASE, PGSIZE, NPTENTRIES] at *
            omega
          obtain ⟨d₁, hwalk, -, hpte₁, htable₁, -⟩ := walkpgdir_new
            { vm with mem := update vm.mem q .zero, free := t :: free } hidx hl.backed.sparse ht rfl
          simp only [kalloc, mappages_one, hwalk, hpte₁, hwn, ht, Option.isSome_none, Bool.false_eq_true, if_false,
            ok_bind]
          refine ih (hl.map once hq hw (by omega) hpte₁ (fun i hi => ?_) ?_ hwn)
          · by_cases hiw : i = w / NPTENTRIES
            · exact hiw ▸ ht
            · rwa [htable₁, update_of_ne hiw] at hi
          · simp [htable₁]
      · simp only [kalloc, mappages_one, walkpgdir_of_table ht, hwn, Option.isSome_iff_ne_none.mpr ht, Option.isSome_none,
          Bool.false_eq_true, if_false, if_true, ok_bind]
        exact ih (hl.map once hq hw (by omega) rfl (fun _ => id) ht hwn)

/-! ### All or nothing -/

/-- A call for the page of a page table is answered, if the loop gets to it. -/
def TablesFound (others : Nat → List Nat) (d : Pgdir) (oldsz newsz : Nat) : Prop :=
  ∀ v, Within (pgroundup oldsz / PGSIZE) newsz v → d.Opens (pgroundup oldsz / PGSIZE) v →
    (∀ j ≤ d.calls (pgroundup oldsz / PGSIZE) v, others j ≠ []) → others (d.calls (pgroundup oldsz / PGSIZE) v + 1) ≠ []

/-- If `allocuvm` returns the new size then the pages are there, and if it returns 0 then nothing has changed. -/
def AllOrNothing (others : Nat → List Nat) (vm : Vm) (d : Pgdir) (oldsz newsz : Nat) : Prop :=
  ∀ r taken vm' d', allocuvmAmid others vm d oldsz newsz = .ok (r, taken, vm', d') →
    (r = newsz → 0 < newsz → Complete (pgroundup oldsz / PGSIZE) newsz vm' d') ∧
    (r = 0 → Undone oldsz newsz d taken vm' d')

theorem Arrives.of_amid (hs : d.Sparse) (hle : oldsz ≤ newsz)
    (hsz : newsz < KERNBASE) :
    Arrives others oldsz newsz vm d (pgroundup oldsz / PGSIZE) (allocuvmAmid others vm d oldsz newsz) (newsz / PGSIZE + 1)
      (pgroundup oldsz / PGSIZE) [] vm d := by
  have hleft : newsz ≤ (pgroundup oldsz / PGSIZE + (newsz / PGSIZE + 1)) * PGSIZE := by
    generalize pgroundup oldsz / PGSIZE = v
    simp only [PGSIZE]
    omega
  rw [allocuvmAmid, if_neg (Nat.not_le.mpr hsz), if_neg (Nat.not_lt.mpr hle)]
  have h := Arrives.start others oldsz vm hs hleft
  rwa [pgroundup_div_mul] at h

theorem oldsz_lt_of_page {u : Nat} (hu : Within (pgroundup oldsz / PGSIZE) newsz u) (hsz : newsz ≤ KERNBASE) (hle : oldsz ≤ newsz) :
    oldsz < newsz := by
  have hmul := Nat.mul_le_mul_right PGSIZE hu.1
  have hround := pgroundup_le (Nat.le_trans hle hsz)
  have hend := hu.2
  rw [pgroundup_div_mul] at hmul
  omega

theorem allOrNothing_of_tablesFound (hkend : 0 < vm.kend) (hd : d.Sound vm) (hS : Supply others vm d) (hle : oldsz ≤ newsz)
    (hsz : newsz < KERNBASE) (htab : TablesFound others d oldsz newsz)
    (hskip : others 0 = [] → ∀ u, Within (pgroundup oldsz / PGSIZE) newsz u → d.pte u ≠ none →
      ¬d.Skipped (pgroundup oldsz / PGSIZE) u) : AllOrNothing others vm d oldsz newsz := by
  intro r taken vm' d' hr
  obtain ⟨left, v, taken₁, vm₁, d₁, harr, hstop⟩ := (Arrives.of_amid hd.sparse hle hsz).stop hS (Nat.le_of_lt hsz)
  rw [hr] at harr
  have hg := harr.grown
  cases hstop with
  | done hv =>
    have heq := harr.done hv
    cases heq
    refine ⟨fun _ _ => hg.complete hS hd (Nat.le_of_lt hsz) hv, fun hr0 => ?_⟩
    -- nothing is asked for, and nothing was taken
    have hvv : v = pgroundup oldsz / PGSIZE := by
      by_contra hne
      have := (harr.unmapped _ (le_refl _) (lt_of_le_of_ne hg.le (Ne.symm hne))).2
      omega
    refine ⟨fun u hu => by have := hu.2; omega, fun u hu => by omega, fun p hp => ?_⟩
    obtain ⟨j, hj, -⟩ := hg.heads p hp
    rw [hvv, Pgdir.calls_self] at hj
    omega
  | noPage hlt hno =>
    have hold := oldsz_lt_of_page ⟨hg.le, hlt⟩ (Nat.le_of_lt hsz) hle
    have hbelow : ∀ u, u < v → u * PGSIZE < newsz := fun u hu =>
      lt_of_le_of_lt (Nat.mul_le_mul_right PGSIZE (Nat.le_of_lt hu)) hlt
    obtain ⟨vm₂, d₂, hr₂, hu⟩ := hg.undo hS hd hkend hold (Nat.le_of_lt hsz) (fun hvv => hskip (by
      rwa [hvv, Pgdir.calls_self] at hno)) hbelow
    have heq := harr.noPage hlt hno
    rw [hr₂] at heq
    cases heq
    exact ⟨fun h0 hpos => by omega, fun _ => hu⟩
  | mapped hlt hp hm => cases harr.mapped hlt hp hm
  | noTable hlt hp hn ho hno =>
    refine absurd hno (htab v ⟨hg.le, hlt⟩ ho fun j hj => ?_)
    rcases Nat.eq_or_lt_of_le hj with rfl | hj
    · exact hp
    · exact harr.found j hj

theorem Arrives.at_noTable {result : Outcome (Nat × List Nat × Vm × Pgdir)} {left w : Nat}
    (harr : Arrives others oldsz newsz vm₀ d₀ v₀ result left w taken vm d) (hstop : Stop others d₀ v₀ newsz w)
    (hfree : ∀ u, Within v₀ newsz u → d₀.pte u = none) (hv : Within v₀ newsz v) (ho : d₀.Opens v₀ v)
    (hfound : ∀ j ≤ d₀.calls v₀ v, others j ≠ []) (hno : others (d₀.calls v₀ v + 1) = []) : w = v := by
  have hg := harr.grown
  have hcalls := Pgdir.calls_succ_of_opens hv.1 ho
  have hwv : w ≤ v := by
    by_contra hlt
    have := calls_mono d₀ v₀ (show v + 1 ≤ w by omega)
    exact harr.found (d₀.calls v₀ v + 1) (by omega) hno
  have hmul := Nat.mul_le_mul_right PGSIZE hwv
  cases hstop with
  | done hw =>
    have := hv.2
    omega
  | noPage hlt hw => exact absurd hw (hfound _ (calls_mono d₀ v₀ hwv))
  | mapped hlt hp hm => exact absurd (hfree w ⟨hg.le, hlt⟩) hm
  | noTable hlt hp hn ho' hno' =>
    by_contra hne
    have hsucc := calls_mono d₀ v₀ (show w + 1 ≤ v by omega)
    rw [Pgdir.calls_succ_of_opens hg.le ho'] at hsucc
    exact hfound (d₀.calls v₀ w + 1) (Nat.le_of_succ_le hsucc) hno'

theorem tablesFound_of_allOrNothing (hkend : 0 < vm.kend) (hd : d.Sound vm) (hS : Supply others vm d) (hle : oldsz ≤ newsz)
    (hsz : newsz < KERNBASE) (hfree : ∀ u, Within (pgroundup oldsz / PGSIZE) newsz u → d.pte u = none)
    (h : AllOrNothing others vm d oldsz newsz) : TablesFound others d oldsz newsz := by
  intro v hv ho hfound hno
  have hold := oldsz_lt_of_page hv (Nat.le_of_lt hsz) hle
  obtain ⟨left, w, taken, vm₁, d₁, harr, hstop⟩ := (Arrives.of_amid hd.sparse hle hsz).stop hS (Nat.le_of_lt hsz)
  have hg := harr.grown
  obtain rfl := harr.at_noTable hstop hfree hv ho hfound hno
  cases hstop with
  | done hw =>
    have := hv.2
    omega
  | noPage hlt hw => exact hfound _ (le_refl _) hw
  | mapped hlt hp hm => exact hm (hfree w ⟨hg.le, hlt⟩)
  | noTable hlt hp hn ho' hno' =>
    obtain ⟨p, rest, hdata⟩ := List.exists_cons_of_ne_nil hp
    obtain ⟨left, rfl⟩ := harr.left_pos hlt
    have hsound := hg.sound hS hd
    have hmem : p ∈ others (d.calls (pgroundup oldsz / PGSIZE) w) := hdata ▸ List.mem_cons_self
    have hhead : (others (d.calls (pgroundup oldsz / PGSIZE) w)).head? = some p := by rw [hdata, List.head?_cons]
    have hl : Lost others newsz w p (d.calls (pgroundup oldsz / PGSIZE) w + 2) (w + 1) (p :: taken)
        { vm₁ with mem := update vm₁.mem p .zero, free := [] } d₁ := by
      refine ⟨by rw [hg.kend]; exact hkend, ⟨hsound.sparse, hsound.valid⟩, fun k q hq => ?_, ⟨_, Nat.lt_add_of_pos_right (by decide), hhead⟩,
        List.mem_cons_self, ?_, ?_, Nat.lt_succ_self w, fun u hu => ?_⟩
      · have := hS.valid k q hq
        rw [Valid, hg.kend]
        exact this
      · rw [hg.frames, Multiset.mem_add, Multiset.mem_coe]
        rintro (hp' | hp')
        · obtain ⟨j, hj, hj'⟩ := hg.heads p hp'
          exact hS.once j _ p hj hj' hmem
        · exact hS.apart _ p hmem hp'
      · rw [hg.pte_of_ge (le_refl w), hn]
      · have hwu := Nat.le_of_succ_le hu.1
        rw [hg.pte_of_ge hwu, hfree u ⟨Nat.le_trans hg.le hwu, hu.2⟩]
    obtain ⟨r, taken', vm', d', hr, hcase⟩ := hl.result hS.once hold (Nat.le_of_lt hsz) left
    have hres := h r taken' vm' d' ((harr.noTable hlt hdata ho hno).trans hr)
    rcases hcase with ⟨hrn, hhole⟩ | ⟨hr0, hmem', hnot⟩
    · obtain ⟨q, hq, -⟩ := hres.1 hrn (by omega) w hv
      rw [hhole] at hq
      cases hq
    · exact hnot ((hres.2 hr0).2.2 p hmem')

/-- `allocuvm` does all or nothing, however the calls of `kalloc` turn out, if those for page tables are answered; and only
    then, if nothing is mapped in the range before. When not even the first page is there, pages that are mapped in the
    range already must not be out of reach of `deallocuvm`. -/
theorem allocuvm_all_or_nothing (hkend : 0 < vm.kend) (hd : d.Sound vm) (hS : Supply others vm d) (hle : oldsz ≤ newsz)
    (hsz : newsz < KERNBASE) :
    (TablesFound others d oldsz newsz ∧ (others 0 = [] → ∀ u, Within (pgroundup oldsz / PGSIZE) newsz u → d.pte u ≠ none →
      ¬d.Skipped (pgroundup oldsz / PGSIZE) u) → AllOrNothing others vm d oldsz newsz) ∧
    ((∀ u, Within (pgroundup oldsz / PGSIZE) newsz u → d.pte u = none) →
      (AllOrNothing others vm d oldsz newsz ↔ TablesFound others d oldsz newsz)) := by
  refine ⟨fun h => allOrNothing_of_tablesFound hkend hd hS hle hsz h.1 h.2, fun hfree => ⟨?_, fun h => ?_⟩⟩
  · exact tablesFound_of_allOrNothing hkend hd hS hle hsz hfree
  · exact allOrNothing_of_tablesFound hkend hd hS hle hsz h fun _ u hu hn => absurd (hfree u hu) hn

def bare : Pgdir := { dir := 2000, table := fun _ => none, pte := fun _ => none }

theorem frames_bare : bare.frames = 0 := held_eq_zero fun _ _ => rfl

theorem sound_bare (vm : Vm) : bare.Sound vm := by
  refine ⟨⟨fun _ _ => rfl, fun p hp => ?_⟩, ?_⟩
  · rw [frames_bare] at hp
    exact absurd hp (Multiset.notMem_zero p)
  · rw [frames_bare]
    exact Multiset.nodup_zero

theorem supply_range (n : Nat) (hn : n ≤ 1000) : Supply (fun k => (List.range' 1000 n).drop k) noMemory bare := by
  have hdrop : ∀ k, (List.range' 1000 n).drop k = List.range' (1000 + k) (n - k) := fun k => by
    rw [List.drop_range', Nat.mul_one]
  refine ⟨fun k p hp => ?_, fun k p _ => ?_, fun j k p hjk hj hp => ?_⟩
  · rw [hdrop, List.mem_range'_1] at hp
    refine ⟨?_, ?_⟩
    · exact Nat.le_trans (by decide : noMemory.kend ≤ 1000) (by omega)
    · exact Nat.lt_of_lt_of_le (by omega : p < 3000) (by decide)
  · rw [frames_bare]
    exact Multiset.notMem_zero p
  · rw [hdrop, List.mem_range'_1] at hp
    rw [hdrop] at hj
    have := List.mem_of_mem_head? hj
    rw [List.head?_range'] at hj
    split at hj
    · cases hj
    · cases hj
      omega

/-- Two pages are enough for one page of memory and its page table. -/
theorem allocuvm_two_pages : AllOrNothing (fun k => (List.range' 1000 2).drop k) noMemory bare 0 PGSIZE := by
  refine ((allocuvm_all_or_nothing (by decide) (sound_bare _) (supply_range 2 (by decide)) (by decide) (by decide)).2
    fun _ _ => rfl).mpr fun v hv _ _ => ?_
  obtain rfl : v = 0 := by
    have := hv.2
    simp only [PGSIZE] at this
    omega
  exact List.cons_ne_nil 1001 []

/-- With one page left, a process without page tables gets the size it asks for and no page. -/
theorem allocuvm_one_page : bare.Sound noMemory ∧ Supply (fun k => (List.range' 1000 1).drop k) noMemory bare ∧
    ¬AllOrNothing (fun k => (List.range' 1000 1).drop k) noMemory bare 0 PGSIZE := by
  refine ⟨sound_bare noMemory, supply_range 1 (by decide), fun h => ?_⟩
  obtain ⟨p, hp, -⟩ := (h PGSIZE [1000] _ bare rfl).1 rfl (by decide) 0 (by decide)
  cases hp

end Vm
end Xv6
