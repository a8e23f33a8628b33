import Xv6.Theorems.Freevm

/-! `copyuvm` makes a copy of an address space that has no page in common with it. How many pages it takes is known
    beforehand, and so is the place where it stops when there are not enough. -/

namespace Xv6
open Slots
open Function (comp_apply update update_of_ne update_self)
open Outcome (bind_eq_ok ok_bind)

namespace Vm
variable {vm vm' vm₀ : Vm} {d d' src : Pgdir} {v p sz : Nat}

/-! ### Where `mappages` stops -/

theorem walkpgdir_mem {alloc : Bool} (h : vm.walkpgdir d v alloc = some (vm', d')) : vm'.mem = vm.mem := by
  rcases walkpgdir_cases h with ⟨rfl, rfl, -⟩ | ⟨t, hk, -, -, rfl⟩
  · rfl
  · cases hfree : vm.free <;> simp only [kalloc, hfree] at hk <;> cases hk
    rfl

theorem walkpgdir_none (h : vm.walkpgdir d v true = none) : vm.free = [] ∧ d.table (v / NPTENTRIES) = none := by
  by_cases ht : d.table (v / NPTENTRIES) = none
  · cases hfree : vm.free with
    | nil => exact ⟨rfl, ht⟩
    | cons t free =>
      simp only [walkpgdir, ht, kalloc, hfree, Bool.true_eq_false, if_false] at h
      cases h
  · rw [walkpgdir_of_table ht] at h
    cases h

/-- `mappages` has got to page `x`: that is the end, or no page table can be had for it. -/
structure Reached (v n x : Nat) (ok : Bool) (vm : Vm) (d : Pgdir) (vm' : Vm) (d' : Pgdir) : Prop where
  extended : Extended v x vm d vm' d'
  mem : vm'.mem = vm.mem
  mapped : ∀ u, v ≤ u → u < x → d'.pte u ≠ none
  ge : v ≤ x
  le : x ≤ v + n
  done : ok = true → x = v + n
  stopped : ok = false → x < v + n ∧ vm'.free = [] ∧ d'.table (x / NPTENTRIES) = none

theorem Reached.start (hs : d.Sparse) : Reached v 0 v true vm d vm d :=
  ⟨.refl hs, rfl, fun _ hlo hhi => absurd hlo (Nat.not_le_of_lt hhi), le_refl v, le_refl v, fun _ => rfl, fun h => nomatch h⟩

theorem mappages_reaches (w u : Bool) : ∀ (n : Nat) (vm : Vm) {d : Pgdir} {v : Nat} (p : Nat),
    d.Sparse → (∀ u, v ≤ u → u < v + n → d.pte u = none) →
    v + n ≤ NPTENTRIES * NPTENTRIES →
    ∃ x ok vm' d', mappages w u n vm d v p = .ok (ok, vm', d') ∧ Reached v n x ok vm d vm' d'
  | 0, vm, d, v, _, hs, _, _ => ⟨v, true, vm, d, rfl, .start hs⟩
  | n + 1, vm, d, v, p, hs, hun, hv => by
    have hidx : v / NPTENTRIES < NPTENTRIES := Nat.div_lt_of_lt_mul (by omega)
    rw [mappages]
    cases hw : vm.walkpgdir d v true with
    | none =>
      obtain ⟨hfree, ht⟩ := walkpgdir_none hw
      exact ⟨v, false, vm, d, rfl, .refl hs, rfl, fun _ hlo hhi => absurd hlo (Nat.not_le_of_lt hhi), le_refl v, by omega,
        (fun h => by cases h), fun _ => ⟨by omega, hfree, ht⟩⟩
    | some r =>
      obtain ⟨vm₁, d₁⟩ := r
      obtain ⟨-, -, hpte, -, -, -⟩ := Extended.walkpgdir hs hidx hw
      have hnone : d₁.pte v = none := by rw [hpte, hun v (le_refl v) (by omega)]
      have hs₁ := Extended.sparse_setPte ⟨p, w, u⟩ hs hidx hw
      have hun₁ : ∀ y, v + 1 ≤ y → y < v + 1 + n → (setPte d₁ v (some ⟨p, w, u⟩)).pte y = none := fun y hlo hhi => by
        rw [pte_setPte_of_ne d₁ (by omega), hpte, hun y (by omega) (by omega)]
      obtain ⟨x, ok, vm', d', hr, h⟩ := mappages_reaches w u n vm₁ (p + 1) hs₁ hun₁ (by omega)
      refine ⟨x, ok, vm', d', ?_, .cons ⟨p, w, u⟩ hs hidx hw h.ge h.extended, h.mem.trans (walkpgdir_mem hw), fun y hlo hhi => ?_,
        by have := h.ge; omega, by have := h.le; omega, fun hok => ?_, fun hok => ?_⟩
      · simp only [hnone, Option.isSome_none, Bool.false_eq_true, if_false]
        exact hr
      · rcases Nat.eq_or_lt_of_le hlo with rfl | hlo
        · rw [h.extended.pte v fun hin => by omega, setPte]
          simp
        · exact h.mapped y hlo hhi
      · rw [h.done hok]
        omega
      · obtain ⟨hlt, hstop⟩ := h.stopped hok
        exact ⟨by omega, hstop⟩

theorem Reached.table {n x i : Nat} {ok : Bool} (h : Reached v n x ok vm d vm' d') (hx : x = v + n) :
    d'.table i ≠ none ↔ d.table i ≠ none ∨ ∃ u, (v ≤ u ∧ u < v + n) ∧ u / NPTENTRIES = i := by
  subst hx
  constructor
  · intro hi
    by_cases hu : ∃ u, (v ≤ u ∧ u < v + n) ∧ u / NPTENTRIES = i
    · exact .inr hu
    · rw [h.extended.table i fun u hlo hhi heq => hu ⟨u, ⟨hlo, hhi⟩, heq⟩] at hi
      exact .inl hi
  · rintro (hi | ⟨u, ⟨hlo, hhi⟩, rfl⟩)
    · exact h.extended.made i (.inl hi)
    · exact mt (h.extended.sparse u) (h.mapped u hlo hhi)

/-! ### The pages of the kernel's part -/

/-- The page tables of the kernel: for physical memory, and for the devices. -/
def kernelTables : Finset Nat := Finset.Ico 512 568 ∪ Finset.Ico 1016 1024

theorem card_kernelTables : kernelTables.card = 64 := by decide +kernel

theorem mem_kernelTables {i : Nat} : i ∈ kernelTables ↔ 512 ≤ i ∧ i < 568 ∨ 1016 ≤ i ∧ i < 1024 := by
  rw [kernelTables, Finset.mem_union, Finset.mem_Ico, Finset.mem_Ico]

/-- The linker puts `data` behind the start of the kernel, and into memory that is there. -/
structure Linked (vm : Vm) : Prop where
  low : EXTMEM / PGSIZE ≤ vm.data
  high : vm.data ≤ PHYSTOP / PGSIZE

def InRow (k : Nat × Nat × Nat × Bool) (u : Nat) : Prop := k.1 ≤ u ∧ u < k.1 + k.2.2.1

theorem kmap_tables (h : Linked vm) {i : Nat} : i ∈ kernelTables ↔ ∃ k ∈ vm.kmap, ∃ u, InRow k u ∧ u / NPTENTRIES = i := by
  obtain ⟨hlo, hhi⟩ := h
  simp only [mem_kernelTables, kmap, List.mem_cons, List.not_mem_nil, or_false, exists_eq_or_imp, exists_eq_left, InRow]
  simp only [KERNBASE, KERNLINK, DEVSPACE, EXTMEM, PHYSTOP, PGSIZE, NPTENTRIES] at *
  constructor
  · intro hi
    rcases hi with hi | hi
    · by_cases h₁ : i * 1024 < 524288 + 256
      · exact .inl ⟨i * 1024, by omega, by omega⟩
      · by_cases h₂ : i * 1024 < 524288 + vm.data
        · exact .inr (.inl ⟨i * 1024, by omega, by omega⟩)
        · exact .inr (.inr (.inl ⟨i * 1024, by omega, by omega⟩))
    · exact .inr (.inr (.inr ⟨i * 1024, by omega, by omega⟩))
  · rintro (⟨u, hu, rfl⟩ | ⟨u, hu, rfl⟩ | ⟨u, hu, rfl⟩ | ⟨u, hu, rfl⟩) <;> omega

theorem kmap_apart (h : Linked vm) : vm.kmap.Pairwise fun k l => ∀ u, InRow k u → ¬InRow l u := by
  obtain ⟨hlo, hhi⟩ := h
  simp only [kmap, List.pairwise_cons, List.mem_cons, List.not_mem_nil, or_false, forall_eq_or_imp, forall_eq, InRow,
    List.Pairwise.nil, false_imp_iff, implies_true, and_true]
  simp only [KERNBASE, KERNLINK, DEVSPACE, EXTMEM, PHYSTOP, PGSIZE] at *
  refine ⟨⟨fun u => ?_, fun u => ?_, fun u => ?_⟩, ⟨fun u => ?_, fun u => ?_⟩, fun u => ?_⟩ <;> omega

theorem Fresh.frames (h : Fresh vm₀ vm d) : d.frames = 0 := held_eq_zero fun u hu => by
  rw [comp_apply, h.low u (Finset.mem_range.mp hu), Option.map_none]

theorem Fresh.length {t : Finset Nat} (h : Fresh vm₀ vm d) (ht : ∀ i, i ∈ t ↔ i < NPTENTRIES ∧ d.table i ≠ none) :
    vm₀.free.length = vm.free.length + 1 + t.card := by
  have hcard := congrArg Multiset.card h.pages
  have htables : d.tables.card = t.card := card_held fun i => by rw [ht, Finset.mem_range]
  rw [Pgdir.pages, h.frames, add_zero, Multiset.card_add, Multiset.card_cons, htables, Multiset.coe_card, Multiset.coe_card] at hcard
  omega

theorem setupkvmFrom_ends : ∀ (ks : List (Nat × Nat × Nat × Bool)) {vm : Vm} {d : Pgdir},
    (∀ k ∈ ks, KERNPAGE ≤ k.1 ∧ k.1 + k.2.2.1 ≤ NPTENTRIES * NPTENTRIES) →
    ks.Pairwise (fun k l => ∀ u, InRow k u → ¬InRow l u) → (∀ k ∈ ks, ∀ u, InRow k u → u / NPTENTRIES ∈ kernelTables) →
    (∀ k ∈ ks, ∀ u, InRow k u → d.pte u = none) → (∀ i, d.table i ≠ none → i ∈ kernelTables) → Fresh vm₀ vm d →
    (∃ d' vm', setupkvmFrom ks vm d = .ok (some d', vm') ∧ Fresh vm₀ vm' d' ∧ vm'.mem = vm.mem ∧
      ∀ i, d'.table i ≠ none ↔ d.table i ≠ none ∨ ∃ k ∈ ks, ∃ u, InRow k u ∧ u / NPTENTRIES = i) ∨
    ∃ vm', setupkvmFrom ks vm d = .ok (none, vm') ∧ vm'.kend = vm₀.kend ∧ vm'.free = [] ∧ vm₀.free.length < 65
  | [], vm, d, _, _, _, _, _, h => .inl ⟨d, vm, rfl, h, rfl, fun i => ⟨.inl, fun hi => hi.resolve_right fun ⟨k, hk, _⟩ =>
      absurd hk List.not_mem_nil⟩⟩
  | (v, p, n, w) :: ks, vm, d, hks, hap, hin, hun, ht, h => by
    obtain ⟨hlo, hhi⟩ := hks _ List.mem_cons_self
    obtain ⟨hap₁, hap⟩ := List.pairwise_cons.mp hap
    obtain ⟨x, ok, vm₁, d₁, hr, hx⟩ := mappages_reaches w false n vm p h.sparse
      (fun u hlo hhi => hun _ List.mem_cons_self u ⟨hlo, hhi⟩) hhi
    have h₁ := h.extend hlo hx.extended
    have ht₁ : ∀ i, d₁.table i ≠ none → i ∈ kernelTables := fun i hi => by
      by_cases hu : ∃ u, v ≤ u ∧ u < x ∧ u / NPTENTRIES = i
      · obtain ⟨u, hu₁, hu₂, rfl⟩ := hu
        exact hin _ List.mem_cons_self u ⟨hu₁, Nat.lt_of_lt_of_le hu₂ hx.le⟩
      · rw [hx.extended.table i fun u hu₁ hu₂ heq => hu ⟨u, hu₁, hu₂, heq⟩] at hi
        exact ht i hi
    rw [setupkvmFrom, hr, ok_bind]
    cases ok with
    | true =>
      have hend := hx.done rfl
      have hun₁ : ∀ k ∈ ks, ∀ u, InRow k u → d₁.pte u = none := fun k hk u hu => by
        rw [hx.extended.pte u fun hv => hap₁ k hk u ⟨hv.1, hend ▸ hv.2⟩ hu]
        exact hun k (List.mem_cons_of_mem _ hk) u hu
      rcases setupkvmFrom_ends ks (fun k hk => hks k (List.mem_cons_of_mem _ hk)) hap
        (fun k hk => hin k (List.mem_cons_of_mem _ hk)) hun₁ ht₁ h₁ with ⟨d', vm', hr', h', hmem, htab⟩ | hstop
      · refine .inl ⟨d', vm', hr', h', hmem.trans hx.mem, fun i => ?_⟩
        rw [htab, hx.table hend, List.exists_mem_cons_iff, or_assoc]
        rfl
      · exact .inr hstop
    | false =>
      obtain ⟨hlt, hfree, hno⟩ := hx.stopped rfl
      refine .inr ⟨vm₁, rfl, h₁.kend, hfree, ?_⟩
      have hlen := h₁.length (t := kernelTables.filter fun i => d₁.table i ≠ none) fun i => by
        rw [Finset.mem_filter, and_congr_left_iff]
        refine fun hi => iff_of_true (ht₁ i hi) ?_
        have := mem_kernelTables.mp (ht₁ i hi)
        simp only [NPTENTRIES]
        omega
      have hless : (kernelTables.filter fun i => d₁.table i ≠ none).card < kernelTables.card := by
        refine Finset.card_lt_card (Finset.filter_ssubset.mpr ⟨x / NPTENTRIES, ?_, not_not.mpr hno⟩)
        exact hin _ List.mem_cons_self x ⟨hx.ge, hlt⟩
      rw [card_kernelTables] at hless
      rw [hfree, List.length_nil] at hlen
      omega

theorem setupkvm_ends (hl : Linked vm) :
    (vm.free.length < 65 ∧ ∃ vm', vm.setupkvm = .ok (none, vm') ∧ vm'.kend = vm.kend ∧ vm'.free = []) ∨
    (65 ≤ vm.free.length ∧ ∃ d vm', vm.setupkvm = .ok (some d, vm') ∧ Fresh vm vm' d ∧ vm'.mem = vm.mem ∧
      (∀ i, d.table i ≠ none ↔ i ∈ kernelTables) ∧ vm.free.length = vm'.free.length + 65) := by
  cases hfree : vm.free with
  | nil => exact .inl ⟨by decide, vm, by simp only [setupkvm, kalloc, hfree], rfl, hfree⟩
  | cons t free =>
    have hset : vm.setupkvm = setupkvmFrom vm.kmap { vm with free := free } { dir := t, table := fun _ => none, pte := fun _ => none } := by
      simp only [setupkvm, kalloc, hfree]
    rw [hset, ← hfree]
    rcases setupkvmFrom_ends vm.kmap (kmap_bounds hl.high) (kmap_apart hl) (fun k hk u hu => (kmap_tables hl).mpr ⟨k, hk, u, hu, rfl⟩)
      (fun _ _ _ _ => rfl) (fun _ hi => absurd rfl hi) (.start hfree) with ⟨d, vm', hr, h, hmem, htab⟩ | ⟨vm', hr, hkend, hno, hlt⟩
    · have htab' : ∀ i, d.table i ≠ none ↔ i ∈ kernelTables := fun i => by
        rw [htab, kmap_tables hl]
        exact or_iff_right fun hi => hi rfl
      have hlen := h.length (t := kernelTables) fun i => by
        rw [htab', iff_and_self, mem_kernelTables]
        simp only [NPTENTRIES]
        omega
      rw [card_kernelTables] at hlen
      exact .inr ⟨by omega, d, vm', hr, h, hmem, htab', by omega⟩
    · exact .inl ⟨hlt, vm', hr, hkend, hno⟩

/-! ### The loop -/

/-- The pages of `src` before `v` are copied to `d`, and nothing else. -/
structure Cloned (vm₀ : Vm) (src : Pgdir) (v : Nat) (vm : Vm) (d : Pgdir) : Prop where
  kend : vm.kend = vm₀.kend
  sparse : d.Sparse
  copied : ∀ u < v, ∃ e q, src.pte u = some e ∧ d.pte u = some { e with page := q } ∧ vm.mem q = vm₀.mem e.page
  above : ∀ u, v ≤ u → u < KERNPAGE → d.pte u = none
  table : ∀ i, i * NPTENTRIES < KERNPAGE → (d.table i = none ↔ v ≤ i * NPTENTRIES)
  pages : (vm.free : Multiset Nat) + d.pages = vm₀.free
  mem : ∀ p, p ∉ vm₀.free → vm.mem p = vm₀.mem p
  length : vm₀.free.length = vm.free.length + 65 + v + (v + 1023) / 1024

structure Apart (vm : Vm) (src : Pgdir) : Prop where
  nodup : vm.free.Nodup
  frames : ∀ p ∈ src.frames, p ∉ vm.free

theorem Cloned.free_apart (h : Cloned vm₀ src v vm d) (ha : Apart vm₀ src) : ∀ p ∈ vm.free, p ∈ vm₀.free ∧ p ∉ d.pages := by
  have hn : ((vm.free : Multiset Nat) + d.pages).Nodup := by
    rw [h.pages]
    exact Multiset.coe_nodup.mpr ha.nodup
  intro p hp
  constructor
  · rw [← Multiset.mem_coe, ← h.pages, Multiset.mem_add]
    exact .inl (Multiset.mem_coe.mpr hp)
  · exact Multiset.disjoint_left.mp (Multiset.nodup_add.mp hn).2.2 (Multiset.mem_coe.mpr hp)

theorem Cloned.map {e : Pte} {free free' : List Nat} {d₁ : Pgdir} (h : Cloned vm₀ src v vm d) (ha : Apart vm₀ src) (hv : v < KERNPAGE)
    (he : src.pte v = some e) (hp : vm.free = p :: free) (hpte : d₁.pte = d.pte) (hdir : d₁.dir = d.dir)
    (htable : ∀ i, d₁.table i = none ↔ d.table i = none ∧ i ≠ v / NPTENTRIES) (hfree : (free' : Multiset Nat) + d₁.tables = free + d.tables)
    (hlen : free.length = free'.length + if v % NPTENTRIES = 0 then 1 else 0) :
    Cloned vm₀ src (v + 1) { vm with mem := update vm.mem p (vm.mem e.page), free := free' }
      (setPte d₁ v (some ⟨p, e.writable, e.user⟩)) := by
  obtain ⟨hp₀, hpd⟩ := h.free_apart ha p (hp ▸ List.mem_cons_self)
  have hsame : vm.mem e.page = vm₀.mem e.page := h.mem e.page (ha.frames _ (Pgdir.mem_frames.mpr ⟨v, e, hv, he, rfl⟩))
  refine ⟨h.kend, fun u hu => ?_, fun u hu => ?_, fun u hlo hhi => ?_, fun i hi => ?_, ?_, fun q hq => ?_, ?_⟩
  · obtain ⟨ht, hne⟩ := (htable _).mp hu
    rw [pte_setPte_of_ne d₁ (by rintro rfl; exact hne rfl), hpte]
    exact h.sparse u ht
  · rcases Nat.eq_or_lt_of_le (Nat.le_of_lt_succ hu) with rfl | hu
    · exact ⟨e, p, he, pte_setPte_self d₁ u _, (update_self p _ _).trans hsame⟩
    · obtain ⟨f, q, hf, hq, hmem⟩ := h.copied u hu
      refine ⟨f, q, hf, by rw [pte_setPte_of_ne d₁ (Nat.ne_of_lt hu), hpte, hq], ?_⟩
      refine (update_of_ne ?_ _ _).trans hmem
      rintro rfl
      exact hpd (Multiset.mem_cons_of_mem (Multiset.mem_add.mpr (.inr (Pgdir.mem_frames.mpr ⟨u, _, by omega, hq, rfl⟩))))
  · rw [pte_setPte_of_ne d₁ (by omega), hpte, h.above u (by omega) hhi]
  · have := h.table i hi
    rw [setPte, htable, this]
    simp only [NPTENTRIES] at *
    omega
  · rw [← h.pages, hp, ← Multiset.cons_coe, Pgdir.pages, Pgdir.pages]
    have hframes : (setPte d₁ v (some ⟨p, e.writable, e.user⟩)).frames = p ::ₘ d.frames := by
      rw [Pgdir.frames_fill _ hv (by rw [hpte, h.above v (le_refl v) hv]), Pgdir.frames_congr fun u _ => congrFun hpte u]
    have htables : (setPte d₁ v (some ⟨p, e.writable, e.user⟩)).tables = d₁.tables := rfl
    rw [hframes, htables, setPte, hdir, Multiset.add_cons, Multiset.add_cons, Multiset.add_cons, ← add_assoc, hfree,
      Multiset.add_cons, Multiset.cons_add, add_assoc]
  · exact (update_of_ne (by rintro rfl; exact hq hp₀) _ _).trans (h.mem q hq)
  · have := h.length
    rw [hp, List.length_cons, hlen] at this
    rw [this]
    dsimp only
    simp only [NPTENTRIES]
    split <;> omega

theorem Cloned.round {e : Pte} {free : List Nat} (h : Cloned vm₀ src v vm d) (ha : Apart vm₀ src) (hv : v < KERNPAGE)
    (he : src.pte v = some e) (hp : vm.free = p :: free) :
    (∃ vm' d', mappages e.writable e.user 1 { vm with mem := update vm.mem p (vm.mem e.page), free := free } d v p =
      .ok (true, vm', d') ∧ Cloned vm₀ src (v + 1) vm' d') ∨
    (free = [] ∧ v % NPTENTRIES = 0 ∧
      mappages e.writable e.user 1 { vm with mem := update vm.mem p (vm.mem e.page), free := free } d v p =
        .ok (false, { vm with mem := update vm.mem p (vm.mem e.page), free := free }, d)) := by
  have hidx : v / NPTENTRIES < NPTENTRIES := by
    simp only [KERNPAGE, KERNBASE, PGSIZE, NPTENTRIES] at *
    omega
  have hnone : d.pte v = none := h.above v (le_refl v) hv
  have htable : d.table (v / NPTENTRIES) = none ↔ v % NPTENTRIES = 0 := by
    rw [h.table _ (Nat.lt_of_le_of_lt (Nat.div_mul_le_self v NPTENTRIES) hv)]
    simp only [NPTENTRIES]
    omega
  rw [mappages_one]
  by_cases ht : d.table (v / NPTENTRIES) = none
  · cases free with
    | nil =>
      refine .inr ⟨rfl, htable.mp ht, ?_⟩
      simp only [walkpgdir, ht, kalloc, Bool.true_eq_false, if_false]
    | cons t free =>
      obtain ⟨d₁, hw, hdir, hpte, htab, htables⟩ := walkpgdir_new
        { vm with mem := update vm.mem p (vm.mem e.page), free := t :: free } hidx h.sparse ht rfl
      refine .inl ⟨{ vm with mem := update vm.mem p (vm.mem e.page), free := free },
        setPte d₁ v (some ⟨p, e.writable, e.user⟩), ?_, h.map ha hv he hp hpte hdir (fun i => ?_) ?_ ?_⟩
      · rw [hw]
        simp only [hpte, hnone, Option.isSome_none, Bool.false_eq_true, if_false]
      · rw [htab]
        by_cases hi : i = v / NPTENTRIES
        · simp [hi]
        · simp [hi]
      · rw [htables, ← Multiset.cons_coe, Multiset.add_cons, Multiset.cons_add]
      · rw [List.length_cons, if_pos (htable.mp ht)]
  · refine .inl ⟨{ vm with mem := update vm.mem p (vm.mem e.page), free := free },
      setPte d v (some ⟨p, e.writable, e.user⟩), ?_, h.map ha hv he hp rfl rfl (fun i => ?_) rfl ?_⟩
    · rw [walkpgdir_of_table ht]
      simp only [hnone, Option.isSome_none, Bool.false_eq_true, if_false]
    · exact iff_self_and.mpr fun hi heq => ht (heq ▸ hi)
    · rw [if_neg (mt htable.mpr ht), Nat.add_zero]

/-- Where and how the loop of `copyuvm` stops, with this result. -/
inductive Stops (src : Pgdir) (sz v : Nat) (vm : Vm) (d : Pgdir) (result : Outcome (Option Pgdir × Vm)) : Prop
  | done (h : sz ≤ v * PGSIZE) (hr : result = .ok (some d, vm))
  | absent (h : v * PGSIZE < sz) (he : src.pte v = none) (msg : String) (hr : result = .panic msg)
  | trap (h : v * PGSIZE < sz) (e : Pte) (he : src.pte v = some e) (hbad : PHYSTOP / PGSIZE ≤ e.page) (hr : result = .panic "trap")
  | noPage (h : v * PGSIZE < sz) (he : src.pte v ≠ none) (hfree : vm.free = [])
      (hr : result = vm.freevm d >>= fun vm => pure (none, vm))
  | noTable (h : v * PGSIZE < sz) (e : Pte) (he : src.pte v = some e) (p : Nat) (hfree : vm.free = [p]) (hv : v % NPTENTRIES = 0)
      (hr : result = freevm { vm with mem := update vm.mem p (vm.mem e.page), free := [] } d >>= fun vm => pure (none, vm))

theorem copyuvmFrom_stops (left : Nat) (ha : Apart vm₀ src) (hs : src.Sparse)
    (hsz : sz ≤ KERNBASE) (h : Cloned vm₀ src v vm d) (hbelow : ∀ u < v, u * PGSIZE < sz) (hle : sz ≤ (v + left) * PGSIZE) :
    ∃ w vm' d', Cloned vm₀ src w vm' d' ∧ (∀ u < w, u * PGSIZE < sz) ∧
      Stops src sz w vm' d' (copyuvmFrom src sz left vm d (v * PGSIZE)) := by
  induction left generalizing v vm d with
  | zero => exact ⟨v, vm, d, h, hbelow, .done hle rfl⟩
  | succ left ih =>
    rw [copyuvmFrom]
    by_cases hlt : v * PGSIZE < sz
    case neg => exact ⟨v, vm, d, h, hbelow, .done (Nat.le_of_not_lt hlt) (if_neg hlt)⟩
    case pos =>
    rw [if_pos hlt, Nat.mul_div_cancel v (by decide : 0 < PGSIZE)]
    cases he : src.pte v with
    | none =>
      refine ⟨v, vm, d, h, hbelow, ?_⟩
      cases hw : vm.walkpgdir src v false with
      | none => exact .absent hlt he _ rfl
      | some r => exact .absent hlt he _ rfl
    | some e =>
      rw [walkpgdir_of_table (mt (hs v) (by simp [he]))]
      dsimp only
      cases hp : vm.free with
      | nil =>
        refine ⟨v, vm, d, h, hbelow, .noPage hlt (by simp [he]) hp ?_⟩
        simp only [kalloc, hp]
      | cons p free =>
        simp only [kalloc, hp]
        by_cases hbad : PHYSTOP / PGSIZE ≤ e.page
        case pos => exact ⟨v, vm, d, h, hbelow, .trap hlt e he hbad (if_pos hbad)⟩
        case neg =>
        rw [if_neg hbad]
        have hv : v < KERNPAGE := by
          simp only [KERNPAGE, KERNBASE, PGSIZE] at *
          omega
        rcases h.round ha hv he hp with ⟨vm', d', hr, h'⟩ | ⟨rfl, hmod, hr⟩
        · rw [hr, ok_bind]
          have hbelow' : ∀ u < v + 1, u * PGSIZE < sz := fun u hu =>
            Nat.lt_of_le_of_lt (Nat.mul_le_mul_right PGSIZE (Nat.le_of_lt_succ hu)) hlt
          have := ih h' hbelow' (by rwa [Nat.add_right_comm])
          rwa [Nat.add_mul, Nat.one_mul] at this
        · rw [hr, ok_bind]
          exact ⟨v, vm, d, h, hbelow, .noTable hlt e he p hp hmod rfl⟩

theorem Cloned.start (hl : Linked vm₀) (h : vm₀.setupkvm = .ok (some d, vm)) (src : Pgdir) : Cloned vm₀ src 0 vm d := by
  rcases setupkvm_ends hl with ⟨-, vm', hr, -⟩ | ⟨-, d', vm', hr, hf, hmem, -, hlen⟩
  · rw [hr] at h
    cases h
  · rw [hr] at h
    cases h
    refine ⟨hf.kend, hf.sparse, fun u hu => absurd hu (Nat.not_lt_zero u), fun u _ hu => hf.low u hu, fun i hi => ?_, hf.pages,
      fun p _ => congrFun hmem p, hlen⟩
    exact iff_of_true (hf.table i hi) (Nat.zero_le _)

theorem copyuvm_ends (hl : Linked vm) (ha : Apart vm src) (hs : src.Sparse)
    (hsz : sz ≤ KERNBASE) :
    (vm.free.length < 65 ∧ ∃ vm', vm.copyuvm src sz = .ok (none, vm') ∧ vm'.kend = vm.kend ∧ vm'.free = []) ∨
    ∃ v vm' d, Cloned vm src v vm' d ∧ (∀ u < v, u * PGSIZE < sz) ∧ Stops src sz v vm' d (vm.copyuvm src sz) := by
  rcases setupkvm_ends hl with ⟨hlt, vm', hr, hkend, hfree⟩ | ⟨-, d, vm', hr, -⟩
  · refine .inl ⟨hlt, vm', ?_, hkend, hfree⟩
    rw [copyuvm, hr, ok_bind]
    rfl
  · refine .inr ?_
    have hfuel : sz ≤ (0 + (sz / PGSIZE + 1)) * PGSIZE := by
      simp only [PGSIZE]
      omega
    obtain ⟨v, vm₁, d₁, hc, hbelow, hstop⟩ := copyuvmFrom_stops (sz / PGSIZE + 1) ha hs hsz (.start hl hr src)
      (fun u hu => absurd hu (Nat.not_lt_zero u)) hfuel
    rw [Nat.zero_mul] at hstop
    refine ⟨v, vm₁, d₁, hc, hbelow, ?_⟩
    rw [copyuvm, hr, ok_bind]
    exact hstop

/-! ### Parent and child -/

/-- A store by a process: the page, the place in it, and the bytes. -/
structure Store where
  page : Nat
  off : Nat
  bytes : List UInt8

/-- A process can store to pages below the kernel that are mapped for it, with `PTE_W` and `PTE_U`. -/
def store (vm : Vm) (d : Pgdir) (s : Store) : Outcome Vm :=
  match d.pte s.page with
  | none => .panic "trap"
  | some e => if s.page < KERNPAGE ∧ e.user ∧ e.writable then vm.write e.page s.off s.bytes else .panic "trap"

/-- Two processes store to their memory, in any order. -/
def stores (d : Bool → Pgdir) : List (Bool × Store) → Vm → Outcome Vm
  | [], vm => .ok vm
  | (who, s) :: rest, vm => do
    let vm ← vm.store (d who) s
    stores d rest vm

def Alike (d : Pgdir) (vm vm' : Vm) : Prop := ∀ p ∈ d.frames, vm'.mem p = vm.mem p

theorem store_eq_ok {s : Store} (h : vm.store d s = .ok vm') :
    ∃ p ∈ d.frames, p < PHYSTOP / PGSIZE ∧ vm' = { vm with mem := update vm.mem p ((vm.mem p).setBytes s.off s.bytes) } ∧
      ∀ vm₁ : Vm, vm₁.store d s = .ok { vm₁ with mem := update vm₁.mem p ((vm₁.mem p).setBytes s.off s.bytes) } := by
  rw [store] at h
  split at h
  · cases h
  · rename_i e he
    split at h
    · rename_i hmode
      rw [write] at h
      split at h
      · cases h
      · rename_i hp
        cases h
        refine ⟨e.page, Pgdir.mem_frames.mpr ⟨_, e, hmode.1, he, rfl⟩, Nat.lt_of_not_le hp, rfl, fun vm₁ => ?_⟩
        simp only [store, he, if_pos hmode, write, if_neg hp]
    · cases h

theorem Alike.store_other {s : Store} (h : Alike d vm₀ vm) (hd : ∀ p ∈ d'.frames, p ∉ d.frames) (hs : vm.store d' s = .ok vm') :
    Alike d vm₀ vm' := by
  obtain ⟨p, hp, -, rfl, -⟩ := store_eq_ok hs
  intro q hq
  refine (update_of_ne ?_ _ _).trans (h q hq)
  rintro rfl
  exact hd q hp hq

theorem Alike.store_own {s : Store} (h : Alike d vm₀ vm) (hs : vm.store d s = .ok vm') :
    ∃ vm₁, vm₀.store d s = .ok vm₁ ∧ Alike d vm₁ vm' := by
  obtain ⟨p, hp, -, rfl, hall⟩ := store_eq_ok hs
  refine ⟨_, hall vm₀, fun q hq => ?_⟩
  by_cases hqp : q = p
  · subst hqp
    simp only [update_self, h q hq]
  · simp only [update_of_ne hqp, h q hq]

/-- A process sees its own stores only. -/
def Isolated (d : Bool → Pgdir) (vm : Vm) : Prop :=
  ∀ (who : Bool) (l : List (Bool × Store)) (vm' : Vm), stores d l vm = .ok vm' →
    ∃ vm₁, stores d (l.filter fun s => s.1 = who) vm = .ok vm₁ ∧ Alike (d who) vm₁ vm'

theorem stores_alike {d : Bool → Pgdir} {who : Bool} (hd : ∀ p ∈ (d (!who)).frames, p ∉ (d who).frames) :
    ∀ (l : List (Bool × Store)) {vm₀ vm : Vm}, Alike (d who) vm₀ vm → stores d l vm = .ok vm' →
    ∃ vm₁, stores d (l.filter fun s => s.1 = who) vm₀ = .ok vm₁ ∧ Alike (d who) vm₁ vm'
  | [], vm₀, vm, h, hr => by
    cases hr
    exact ⟨vm₀, rfl, h⟩
  | (b, s) :: l, vm₀, vm, h, hr => by
    rw [stores] at hr
    obtain ⟨vm₂, hs, hrest⟩ := bind_eq_ok.mp hr
    by_cases hb : b = who
    · subst hb
      obtain ⟨vm₁, hs₁, h₁⟩ := h.store_own hs
      obtain ⟨vm₃, hr₃, h₃⟩ := stores_alike hd l h₁ hrest
      refine ⟨vm₃, ?_, h₃⟩
      rw [List.filter_cons_of_pos (by simp), stores, hs₁, ok_bind, hr₃]
    · obtain rfl : b = !who := by cases b <;> cases who <;> simp_all
      obtain ⟨vm₃, hr₃, h₃⟩ := stores_alike hd l (h.store_other hd hs) hrest
      exact ⟨vm₃, by rw [List.filter_cons_of_neg (by simp), hr₃], h₃⟩

theorem isolated_of_apart {d : Bool → Pgdir} (hd : ∀ p ∈ (d true).frames, p ∉ (d false).frames) (vm : Vm) : Isolated d vm :=
  fun who l _ hr => stores_alike (by
    cases who
    · exact hd
    · exact fun p hp hq => hd p hq hp) l (fun _ _ => rfl) hr

/-- `d` maps copies of the pages of `src` below `sz`, and no other pages below the kernel; no page is used twice. -/
structure Copy (src : Pgdir) (sz : Nat) (vm : Vm) (d : Pgdir) (vm' : Vm) : Prop where
  same : ∀ v, v * PGSIZE < sz → ∃ e q, src.pte v = some e ∧ d.pte v = some { e with page := q } ∧ vm'.mem q = vm.mem e.page
  only : ∀ v < KERNPAGE, sz ≤ v * PGSIZE → d.pte v = none
  distinct : ∀ v w e f, v < KERNPAGE → w < KERNPAGE → d.pte v = some e → d.pte w = some f → e.page = f.page → v = w
  apart : ∀ p ∈ d.pages, p ∉ src.pages
  kept : ∀ p ∈ src.pages, vm'.mem p = vm.mem p

/-- The child's address space is a copy of the parent's, and from then on neither sees what the other stores. -/
theorem copyuvm_faithful (hl : Linked vm) (hn : ((vm.free : Multiset Nat) + src.pages).Nodup)
    (hs : ∀ u, src.table (u / NPTENTRIES) = none → src.pte u = none) (hsz : sz < KERNBASE)
    (h : vm.copyuvm src sz = .ok (some d, vm')) :
    Copy src sz vm d vm' ∧ Isolated (fun child => if child then d else src) vm' := by
  obtain ⟨hfree, -, hdisj⟩ := Multiset.nodup_add.mp hn
  have hsrc : ∀ p ∈ src.pages, p ∉ vm.free := fun p hp hf => Multiset.disjoint_left.mp hdisj (Multiset.mem_coe.mpr hf) hp
  have ha : Apart vm src := ⟨Multiset.coe_nodup.mp hfree, fun p hp =>
    hsrc p (Multiset.mem_cons_of_mem (Multiset.mem_add.mpr (.inr hp)))⟩
  rcases copyuvm_ends hl ha hs (Nat.le_of_lt hsz) with ⟨-, vm₁, hr, -⟩ | ⟨v, vm₁, d₁, hc, hbelow, hstop⟩
  · rw [hr] at h
    cases h
  · rw [h] at hstop
    cases hstop with
    | absent _ _ _ hr | trap _ _ _ _ hr => cases hr
    | noPage _ _ _ hr | noTable _ _ _ _ _ _ hr =>
      obtain ⟨vm₂, -, hr⟩ := bind_eq_ok.mp hr.symm
      cases hr
    | done hv hr =>
      cases hr
      have hsub : ∀ p ∈ d.pages, p ∈ vm.free := fun p hp => by
        rw [← Multiset.mem_coe, ← hc.pages]
        exact Multiset.mem_add.mpr (.inr hp)
      have hnodup : d.frames.Nodup := by
        rw [← hc.pages] at hfree
        refine Multiset.nodup_of_le ?_ (Multiset.nodup_add.mp hfree).2.1
        exact (Multiset.le_add_left _ _).trans (Multiset.le_cons_self _ _)
      have hframes : ∀ {e : Pgdir} {p : Nat}, p ∈ e.frames → p ∈ e.pages := fun hp =>
        Multiset.mem_cons_of_mem (Multiset.mem_add.mpr (.inr hp))
      refine ⟨⟨fun u hu => hc.copied u ?_, fun u hu hle => hc.above u ?_ hu, fun u w e f hu hw he hf hef => ?_,
        fun p hp hps => hsrc p hps (hsub p hp), fun p hp => hc.mem p (hsrc p hp)⟩, isolated_of_apart ?_ vm'⟩
      · exact Nat.lt_of_mul_lt_mul_right (Nat.lt_of_lt_of_le hu hv)
      · by_contra hlt
        exact absurd (hbelow u (Nat.lt_of_not_le hlt)) (Nat.not_lt_of_le hle)
      · refine eq_of_nodup hnodup (Finset.mem_range.mpr hu) (Finset.mem_range.mpr hw) (b := e.page) ?_ ?_
        · rw [comp_apply, he, Option.map_some]
        · rw [comp_apply, hf, Option.map_some, hef]
      · exact fun p hp hq => hsrc p (hframes hq) (hsub p (hframes hp))

theorem pages_onePage : onePage.pages = 2000 ::ₘ 2001 ::ₘ {2002} := by
  have htables : onePage.tables = {2001} := by
    have h₀ : onePage.table 0 = some 2001 := rfl
    rw [Pgdir.tables, held_erase (Finset.mem_range.mpr (by decide : 0 < NPTENTRIES)) h₀]
    exact congrArg _ (held_eq_zero fun i hi => if_neg (Finset.ne_of_mem_erase hi))
  rw [Pgdir.pages, htables, frames_onePage]
  rfl

theorem nodup_roomy_onePage : (((roomy 900).free : Multiset Nat) + onePage.pages).Nodup := by
  refine Multiset.nodup_add.mpr ⟨Multiset.coe_nodup.mpr (roomy_nodup 900), ?_, Multiset.disjoint_left.mpr fun {p} hp hq => ?_⟩
  · rw [pages_onePage]
    decide
  · obtain ⟨-, hhi⟩ := List.mem_range'_1.mp (Multiset.mem_coe.mp hp)
    rw [pages_onePage] at hq
    simp only [Multiset.mem_cons, Multiset.mem_singleton] at hq
    omega

/-- A process of one page is copied. -/
theorem copyuvm_onePage : ∃ d vm', (roomy 900).copyuvm onePage PGSIZE = .ok (some d, vm') ∧ Copy onePage PGSIZE (roomy 900) d vm' ∧
    Isolated (fun child => if child then d else onePage) vm' := by
  have hl : Linked (roomy 900) := ⟨by decide, by decide⟩
  have hn := nodup_roomy_onePage
  suffices hr : ∃ d vm', (roomy 900).copyuvm onePage PGSIZE = .ok (some d, vm') by
    obtain ⟨d, vm', hr⟩ := hr
    exact ⟨d, vm', hr, copyuvm_faithful hl hn sparse_onePage (by decide) hr⟩
  have hlen : (roomy 900).free.length = 900 := List.length_range'
  have ha : Apart (roomy 900) onePage := ⟨roomy_nodup 900, fun p hp hf => Multiset.disjoint_left.mp (Multiset.nodup_add.mp hn).2.2
    (Multiset.mem_coe.mpr hf) (Multiset.mem_cons_of_mem (Multiset.mem_add.mpr (.inr hp)))⟩
  have hzero : ∀ {v : Nat}, v * PGSIZE < PGSIZE → v = 0 := fun h => by
    simp only [PGSIZE] at h
    omega
  rcases copyuvm_ends hl ha sparse_onePage (by decide : PGSIZE ≤ KERNBASE) with ⟨hlt, -⟩ | ⟨v, vm', d, hc, -, hstop⟩
  · omega
  have hcount := hc.length
  rw [hlen] at hcount
  cases hstop with
  | done _ hr => exact ⟨d, vm', hr⟩
  | absent h he =>
    obtain rfl := hzero h
    cases he
  | trap h e he hbad =>
    obtain rfl := hzero h
    cases he
    exact absurd hbad (by decide)
  | noPage h _ hfree =>
    obtain rfl := hzero h
    rw [hfree, List.length_nil] at hcount
    omega
  | noTable h _ _ p hfree =>
    obtain rfl := hzero h
    rw [hfree, List.length_singleton] at hcount
    omega

end Vm
end Xv6
