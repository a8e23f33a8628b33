import Xv6.Theorems.Grow

/-! Taking an address space down gives back all that setting it up and growing it took. -/

namespace Xv6
open Slots
open Outcome (bind_eq_ok)

namespace Vm
variable {vm vm' vm₀ : Vm} {d d' : Pgdir} {v p oldsz newsz : Nat}

/-! ### The kernel's part -/

/-- Entries from `v` to before `w` were added; new page tables were taken from the free list. -/
structure Extended (v w : Nat) (vm : Vm) (d : Pgdir) (vm' : Vm) (d' : Pgdir) : Prop where
  dir : d'.dir = d.dir
  kend : vm'.kend = vm.kend
  sparse : d'.Sparse
  pte : ∀ u, ¬(v ≤ u ∧ u < w) → d'.pte u = d.pte u
  table : ∀ i, (∀ u, v ≤ u → u < w → u / NPTENTRIES ≠ i) → d'.table i = d.table i
  made : ∀ i, d.table i ≠ none ∨ (v < w ∧ i = v / NPTENTRIES) → d'.table i ≠ none
  pages : (vm'.free : Multiset Nat) + d'.tables = vm.free + d.tables

theorem Extended.walkpgdir (hs : d.Sparse) (hv : v / NPTENTRIES < NPTENTRIES)
    (h : vm.walkpgdir d v true = some (vm', d')) :
    d'.dir = d.dir ∧ vm'.kend = vm.kend ∧ d'.pte = d.pte ∧ d'.table (v / NPTENTRIES) ≠ none ∧
      (∀ i, i ≠ v / NPTENTRIES → d'.table i = d.table i) ∧ (vm'.free : Multiset Nat) + d'.tables = vm.free + d.tables := by
  by_cases ht : d.table (v / NPTENTRIES) = none
  · cases hfree : vm.free with
    | nil =>
      simp only [Vm.walkpgdir, ht, kalloc, hfree, Bool.true_eq_false, if_false] at h
      cases h
    | cons t free =>
      obtain ⟨d₁, hw, hdir, hpte, htable, htables⟩ := walkpgdir_new vm hv hs ht hfree
      rw [hw] at h
      cases h
      refine ⟨hdir, rfl, hpte, by simp [htable], fun i hi => by rw [htable, Function.update_of_ne hi], ?_⟩
      rw [htables, ← Multiset.cons_coe, Multiset.cons_add, Multiset.add_cons]
  · rw [walkpgdir_of_table ht] at h
    cases h
    exact ⟨rfl, rfl, rfl, ht, fun _ _ => rfl, rfl⟩

theorem Extended.sparse_setPte {vm₁ : Vm} {d₁ : Pgdir} (e : Pte) (hs : d.Sparse)
    (hv : v / NPTENTRIES < NPTENTRIES) (hw : vm.walkpgdir d v true = some (vm₁, d₁)) :
    (setPte d₁ v (some e)).Sparse := by
  obtain ⟨-, -, hpte, ht, htable, -⟩ := Extended.walkpgdir hs hv hw
  intro u hu
  have hne : u / NPTENTRIES ≠ v / NPTENTRIES := fun heq => ht (heq ▸ hu)
  rw [pte_setPte_of_ne d₁ (by rintro rfl; exact hne rfl), hpte]
  exact hs u (htable _ hne ▸ hu)

theorem Extended.cons {w : Nat} {vm₁ : Vm} {d₁ : Pgdir} (e : Pte) (hs : d.Sparse)
    (hv : v / NPTENTRIES < NPTENTRIES) (hw : vm.walkpgdir d v true = some (vm₁, d₁)) (hlt : v < w)
    (h : Extended (v + 1) w vm₁ (setPte d₁ v (some e)) vm' d') : Extended v w vm d vm' d' := by
  obtain ⟨hdir, hkend, hpte, ht, htable, hpages⟩ := Extended.walkpgdir hs hv hw
  refine ⟨h.dir.trans hdir, h.kend.trans hkend, h.sparse, fun x hx => ?_, fun i hi => ?_, fun i hi => ?_, h.pages.trans hpages⟩
  · rw [h.pte x fun hin => hx ⟨by omega, by omega⟩, pte_setPte_of_ne d₁ (by rintro rfl; exact hx ⟨by omega, by omega⟩), hpte]
  · rw [h.table i fun x hlo hhi => hi x (by omega) (by omega)]
    exact htable i fun heq => hi v (le_refl v) hlt heq.symm
  · refine h.made i (.inl ?_)
    by_cases hiv : i = v / NPTENTRIES
    · exact hiv ▸ ht
    · rw [setPte, htable i hiv]
      exact hi.resolve_right fun h => hiv h.2

theorem Extended.refl (hs : d.Sparse) : Extended v v vm d vm d :=
  ⟨rfl, rfl, hs, fun _ _ => rfl, fun _ _ => rfl, fun _ hi => hi.resolve_right fun h => absurd h.1 (lt_irrefl v), rfl⟩

theorem Extended.mappages (w u : Bool) : ∀ (n : Nat) {vm : Vm} {d : Pgdir} {v p : Nat},
    d.Sparse → v + n ≤ NPTENTRIES * NPTENTRIES →
    mappages w u n vm d v p = .ok (true, vm', d') → Extended v (v + n) vm d vm' d'
  | 0, vm, d, v, p, hs, _, h => by
    cases h
    exact .refl hs
  | n + 1, vm, d, v, p, hs, hv, h => by
    rw [Vm.mappages] at h
    split at h
    · cases h
    · rename_i vm₁ d₁ hw
      split at h
      · cases h
      · have hidx : v / NPTENTRIES < NPTENTRIES := Nat.div_lt_of_lt_mul (by omega)
        have ih := Extended.mappages w u n (Extended.sparse_setPte ⟨p, w, u⟩ hs hidx hw) (by omega) h
        rw [Nat.add_assoc, Nat.add_comm 1 n] at ih
        exact .cons ⟨p, w, u⟩ hs hidx hw (by omega) ih

/-- A page directory that is being set up: nothing is mapped below the kernel, and the free pages and its own are those
    that were there. -/
structure Fresh (vm₀ vm : Vm) (d : Pgdir) : Prop where
  kend : vm.kend = vm₀.kend
  sparse : d.Sparse
  low : ∀ u < KERNPAGE, d.pte u = none
  table : ∀ i, i * NPTENTRIES < KERNPAGE → d.table i = none
  pages : (vm.free : Multiset Nat) + d.pages = vm₀.free

theorem Fresh.extend {w : Nat} (h : Fresh vm₀ vm d) (hv : KERNPAGE ≤ v) (hex : Extended v w vm d vm' d') : Fresh vm₀ vm' d' where
  kend := hex.kend.trans h.kend
  sparse := hex.sparse
  low u hu := by rw [hex.pte u fun hin => by omega, h.low u hu]
  table i hi := by
    rw [hex.table i fun u hlo _ heq => ?_, h.table i hi]
    simp only [KERNPAGE, KERNBASE, PGSIZE, NPTENTRIES] at *
    omega
  pages := by
    have hframes : d'.frames = d.frames := Pgdir.frames_congr fun u hu => hex.pte u fun hin => by omega
    rw [← h.pages, Pgdir.pages, Pgdir.pages, hex.dir, hframes, Multiset.add_cons, Multiset.add_cons, ← add_assoc, ← add_assoc,
      hex.pages]

theorem Fresh.setupkvmFrom : ∀ (ks : List (Nat × Nat × Nat × Bool)) {vm : Vm} {d : Pgdir},
    (∀ k ∈ ks, KERNPAGE ≤ k.1 ∧ k.1 + k.2.2.1 ≤ NPTENTRIES * NPTENTRIES) → Fresh vm₀ vm d →
    setupkvmFrom ks vm d = .ok (some d', vm') → Fresh vm₀ vm' d'
  | [], vm, d, _, h, hr => by
    cases hr
    exact h
  | (v, p, n, w) :: ks, vm, d, hks, h, hr => by
    rw [Vm.setupkvmFrom] at hr
    obtain ⟨⟨ok, vm₁, d₁⟩, hmap, hr⟩ := bind_eq_ok.mp hr
    obtain ⟨hlo, hhi⟩ := hks _ List.mem_cons_self
    cases ok with
    | false => cases hr
    | true =>
      have hex := Extended.mappages w false n h.sparse hhi hmap
      exact Fresh.setupkvmFrom ks (fun k hk => hks k (List.mem_cons_of_mem _ hk)) (h.extend hlo hex) hr

theorem Fresh.start {t : Nat} {free : List Nat} (hfree : vm₀.free = t :: free) :
    Fresh vm₀ { vm₀ with free := free } { dir := t, table := fun _ => none, pte := fun _ => none } where
  kend := rfl
  sparse _ _ := rfl
  low _ _ := rfl
  table _ _ := rfl
  pages := by
    have hframes : ({ dir := t, table := fun _ => none, pte := fun _ => none } : Pgdir).frames = 0 := held_eq_zero fun _ _ => rfl
    have htables : ({ dir := t, table := fun _ => none, pte := fun _ => none } : Pgdir).tables = 0 := held_eq_zero fun _ _ => rfl
    rw [Pgdir.pages, hframes, htables, hfree, ← Multiset.cons_coe, add_zero, Multiset.add_cons, add_zero]

theorem setupkvmFrom_table {i : Nat} : ∀ (ks : List (Nat × Nat × Nat × Bool)) {vm : Vm} {d : Pgdir},
    (∀ k ∈ ks, KERNPAGE ≤ k.1 ∧ k.1 + k.2.2.1 ≤ NPTENTRIES * NPTENTRIES) →
    d.Sparse → setupkvmFrom ks vm d = .ok (some d', vm') →
    d.table i ≠ none ∨ (∃ k ∈ ks, 0 < k.2.2.1 ∧ i = k.1 / NPTENTRIES) → d'.table i ≠ none
  | [], vm, d, _, _, hr, hi => by
    cases hr
    exact hi.resolve_right fun ⟨k, hk, _⟩ => absurd hk List.not_mem_nil
  | (v, p, n, w) :: ks, vm, d, hks, hs, hr, hi => by
    rw [Vm.setupkvmFrom] at hr
    obtain ⟨⟨ok, vm₁, d₁⟩, hmap, hr⟩ := bind_eq_ok.mp hr
    obtain ⟨hlo, hhi⟩ := hks _ List.mem_cons_self
    cases ok with
    | false => cases hr
    | true =>
      have hex := Extended.mappages w false n hs hhi hmap
      refine setupkvmFrom_table ks (fun k hk => hks k (List.mem_cons_of_mem _ hk)) hex.sparse hr ?_
      rcases hi with hi | ⟨k, hk, hpos, hi⟩
      · exact .inl (hex.made i (.inl hi))
      · rcases List.mem_cons.mp hk with rfl | hk
        · exact .inl (hex.made i (.inr ⟨by dsimp only at hpos; omega, hi⟩))
        · exact .inr ⟨k, hk, hpos, hi⟩

theorem kmap_bounds (hdata : vm₀.data ≤ PHYSTOP / PGSIZE) :
    ∀ k ∈ vm₀.kmap, KERNPAGE ≤ k.1 ∧ k.1 + k.2.2.1 ≤ NPTENTRIES * NPTENTRIES := by
  intro k hk
  simp only [kmap, List.mem_cons, List.not_mem_nil, or_false] at hk
  simp only [PHYSTOP, PGSIZE] at hdata
  rcases hk with rfl | rfl | rfl | rfl <;>
    simp only [KERNPAGE, KERNBASE, KERNLINK, DEVSPACE, EXTMEM, PHYSTOP, PGSIZE, NPTENTRIES] <;> omega

theorem setupkvm_fresh (hdata : vm₀.data ≤ PHYSTOP / PGSIZE) (h : vm₀.setupkvm = .ok (some d, vm)) : Fresh vm₀ vm d := by
  rw [setupkvm] at h
  cases hfree : vm₀.free with
  | nil =>
    simp only [kalloc, hfree] at h
    cases h
  | cons t free =>
    simp only [kalloc, hfree] at h
    exact Fresh.setupkvmFrom vm₀.kmap (kmap_bounds hdata) (.start hfree) h

theorem setupkvm_table (hdata : vm₀.data ≤ PHYSTOP / PGSIZE) (h : vm₀.setupkvm = .ok (some d, vm)) :
    d.table (KERNPAGE / NPTENTRIES) ≠ none := by
  rw [setupkvm] at h
  cases hfree : vm₀.free with
  | nil =>
    simp only [kalloc, hfree] at h
    cases h
  | cons t free =>
    simp only [kalloc, hfree] at h
    exact setupkvmFrom_table _ (kmap_bounds hdata) (fun _ _ => rfl) h (.inr ⟨_, List.mem_cons_self, by decide, rfl⟩)

/-! ### Conservation -/

theorem held_heads (l : List Nat) : ∀ k ≤ l.length, held (Finset.range k) (fun j => (l.drop j).head?) = (l.take k : Multiset Nat)
  | 0, _ => rfl
  | k + 1, hk => by
    have hlt : k < l.length := hk
    have hhead : (l.drop k).head? = some l[k] := by rw [List.head?_drop, List.getElem?_eq_getElem hlt]
    rw [held_range_succ (f := fun j => (l.drop j).head?) hhead, held_heads l k (Nat.le_of_lt hlt), List.take_add_one,
      List.getElem?_eq_getElem hlt, Option.toList_some, ← Multiset.coe_add, add_comm, Multiset.coe_singleton]

/-- The free pages and those of the address space are the pages that were free at first. -/
structure Balanced (vm₀ vm : Vm) (d : Pgdir) : Prop where
  kend : vm.kend = vm₀.kend
  sparse : d.Sparse
  pages : (vm.free : Multiset Nat) + d.pages = vm₀.free

section Balanced
variable (hv : ∀ p ∈ vm₀.free, Valid vm₀ p) (hn : vm₀.free.Nodup)
include hv

section
variable (h : Balanced vm₀ vm d)
include h

theorem Balanced.valid (hp : p ∈ (vm.free : Multiset Nat) + d.pages) : Valid vm p := by
  rw [h.pages, Multiset.mem_coe] at hp
  have := hv p hp
  rwa [Valid, h.kend]

theorem Balanced.backed : d.Backed vm :=
  ⟨h.sparse, fun _ hp => h.valid hv (Multiset.mem_add.mpr (.inr (Multiset.mem_cons_of_mem (Multiset.mem_add.mpr (.inr hp)))))⟩

include hn

omit hv in
theorem Balanced.nodup : ((vm.free : Multiset Nat) + d.frames).Nodup := by
  have hall : ((vm.free : Multiset Nat) + d.pages).Nodup := by
    rw [h.pages]
    exact Multiset.coe_nodup.mpr hn
  refine Multiset.nodup_of_le (Multiset.add_le_add_left ?_) hall
  exact (Multiset.le_add_left _ _).trans (Multiset.le_cons_self _ _)

theorem Balanced.supply : Supply (fun k => vm.free.drop k) vm d :=
  .of_free (fun _ hp => h.valid hv (Multiset.mem_add.mpr (.inl (Multiset.mem_coe.mpr hp)))) (h.nodup hn)

theorem Balanced.alloc {r : Nat} (htab : TablesFound (fun k => vm.free.drop k) d oldsz newsz)
    (hr : vm.allocuvm d oldsz newsz = .ok (r, vm', d')) (hr0 : r ≠ 0) : Balanced vm₀ vm' d' := by
  by_cases hsz : KERNBASE ≤ newsz
  · rw [allocuvm, if_pos hsz] at hr
    cases hr
    exact absurd rfl hr0
  by_cases hlt : newsz < oldsz
  · rw [allocuvm, if_neg hsz, if_pos hlt] at hr
    cases hr
    exact h
  have hsz := Nat.lt_of_not_le hsz
  obtain ⟨left, v, taken, vm₁, d₁, harr, hstop⟩ :=
    (Arrives.of_amid h.sparse (Nat.le_of_not_lt hlt) hsz).stop (h.supply hv hn) (Nat.le_of_lt hsz)
  have hg := harr.grown
  rw [allocuvm_eq_amid] at hr
  obtain ⟨res, hres, hr⟩ := bind_eq_ok.mp hr
  rw [hres] at harr
  cases hstop with
  | done hv =>
    have heq := harr.done hv
    cases heq
    cases hr
    refine ⟨hg.kend.trans h.kend, hg.sparse, ?_⟩
    have hcalls : d.calls (pgroundup oldsz / PGSIZE) v ≤ vm.free.length := by
      cases hc : d.calls (pgroundup oldsz / PGSIZE) v with
      | zero => exact Nat.zero_le _
      | succ c =>
        have := mt List.drop_eq_nil_iff.mpr (harr.found c (by omega))
        omega
    rw [hg.pages, held_heads _ _ hcalls, ← add_assoc, Multiset.coe_add, ← h.pages]
    refine congrArg (· + d.pages) (Multiset.coe_eq_coe.mpr ?_)
    exact List.perm_append_comm.trans (List.Perm.of_eq (List.take_append_drop _ _))
  | noPage hlt hno =>
    have heq := harr.noPage hlt hno
    obtain ⟨⟨_, _, _⟩, -, hx⟩ := bind_eq_ok.mp heq.symm
    cases hx
    cases hr
    exact absurd rfl hr0
  | mapped hlt hp hm => cases harr.mapped hlt hp hm
  | noTable hlt hp hn ho hno =>
    refine absurd hno (htab v ⟨hg.le, hlt⟩ ho fun j hj => ?_)
    rcases Nat.eq_or_lt_of_le hj with rfl | hj
    · exact hp
    · exact harr.found j hj

omit hn in
theorem Balanced.dealloc {r : Nat} (hkend : 0 < vm₀.kend) (hsz : oldsz ≤ KERNBASE)
    (hr : vm.deallocuvm d oldsz newsz = .ok (r, vm', d')) : Balanced vm₀ vm' d' := by
  by_cases hle : oldsz ≤ newsz
  · rw [deallocuvm, if_pos hle] at hr
    cases hr
    exact h
  obtain ⟨vm₁, d₁, hr₁, -, hf⟩ := deallocuvm_freed (h.kend ▸ hkend) (h.backed hv) (Nat.lt_of_not_le hle) hsz
  rw [hr₁] at hr
  cases hr
  refine ⟨hf.kend.trans h.kend, fun u hu => ?_, ?_⟩
  · rw [hf.table] at hu
    have hnone := h.sparse u hu
    by_cases hin : Within (pgroundup newsz / PGSIZE) oldsz u ∧ ¬d.Skipped (pgroundup newsz / PGSIZE) u
    · exact hf.gone u hin.1 hin.2
    · rw [hf.kept u hin, hnone]
  · have hpages := hf.pages
    rw [← h.pages, Pgdir.pages, Pgdir.pages, hf.dir, Pgdir.tables_congr hf.table, Multiset.add_cons, Multiset.add_cons,
      add_left_comm, hpages, add_left_comm]

end

end Balanced

/-- The calls of `kalloc` for page tables are answered, and no page of the kernel is given back. -/
def Sane (vm : Vm) (d : Pgdir) : Resize → Prop
  | .alloc oldsz newsz => TablesFound (fun k => vm.free.drop k) d oldsz newsz
  | .dealloc oldsz _ => oldsz ≤ KERNBASE

theorem Resized.balanced (hkend : 0 < vm₀.kend) (hdata : vm₀.data ≤ PHYSTOP / PGSIZE) (hv : ∀ p ∈ vm₀.free, Valid vm₀ p)
    (hn : vm₀.free.Nodup) (h : Resized Sane vm₀ vm d) : Balanced vm₀ vm d := by
  induction h with
  | setup h =>
    have hf := setupkvm_fresh hdata h
    exact ⟨hf.kend, hf.sparse, hf.pages⟩
  | call c _ ha hs ih =>
    cases c with
    | alloc oldsz newsz =>
      obtain ⟨r, hr, hr0⟩ := hs
      exact ih.alloc hv hn ha hr hr0
    | dealloc oldsz newsz =>
      obtain ⟨r, hr⟩ := hs
      exact ih.dealloc hv hkend ha hr

/-- An address space that was set up and then grown and shrunk is taken down without a page lost or freed twice. -/
theorem freevm_conserves (hkend : 0 < vm₀.kend) (hdata : vm₀.data ≤ PHYSTOP / PGSIZE) (hv : ∀ p ∈ vm₀.free, Valid vm₀ p)
    (hn : vm₀.free.Nodup) (h : Resized Sane vm₀ vm d) : ∃ vm', vm.freevm d = .ok vm' ∧ vm'.free.Perm vm₀.free := by
  have hb := h.balanced hkend hdata hv hn
  obtain ⟨vm', hr, hfree⟩ := freevm_free (hb.kend ▸ hkend) (hb.backed hv) fun p hp => hb.valid hv (Multiset.mem_add.mpr (.inr hp))
  exact ⟨vm', hr, Multiset.coe_eq_coe.mp (hfree.trans hb.pages)⟩

def roomy (n : Nat) : Vm := { mem := fun _ => .zero, free := List.range' 1000 n, data := 264, kend := 300 }

theorem roomy_valid {n : Nat} (hn : n ≤ 2000) : ∀ p ∈ (roomy n).free, Valid (roomy n) p := by
  intro p hp
  obtain ⟨hlo, hhi⟩ := List.mem_range'_1.mp hp
  exact ⟨Nat.le_trans (by decide : 300 ≤ 1000) hlo, Nat.lt_of_lt_of_le hhi (Nat.le_trans (by omega) (by decide : 3000 ≤ PHYSTOP / PGSIZE))⟩

theorem roomy_nodup (n : Nat) : (roomy n).free.Nodup := List.nodup_range'

theorem setupkvm_roomy : ∃ d vm, (roomy 1028).setupkvm = .ok (some d, vm) ∧ 3 ≤ vm.free.length ∧ vm.free.length ≤ 1026 := by
  obtain ⟨d, vm, hset, hroom, -⟩ := setupkvm_room (n := 3) (roomy 1028) (by rw [roomy, List.length_range']) (by decide) (by decide)
  have hf := setupkvm_fresh (by decide) hset
  have hpos : 0 < d.tables.card := by
    obtain ⟨t, ht⟩ := Option.ne_none_iff_exists'.mp (setupkvm_table (by decide) hset)
    exact Multiset.card_pos_iff_exists_mem.mpr ⟨t, mem_held.mpr ⟨_, Finset.mem_range.mpr (by decide), ht⟩⟩
  have hcard := congrArg Multiset.card hf.pages
  rw [Pgdir.pages, Multiset.card_add, Multiset.card_cons, Multiset.card_add, Multiset.coe_card, Multiset.coe_card, roomy,
    List.length_range'] at hcard
  refine ⟨d, vm, hset, ?_, by omega⟩
  have := hroom.pages
  omega

/-- Two pages are added, one of them is taken away again, and then the address space is taken down. -/
theorem freevm_grown_shrunk : ∃ d vm d₁ vm₁ d₂ vm₂ vm', (roomy 1028).setupkvm = .ok (some d, vm) ∧
    vm.allocuvm d 0 (2 * PGSIZE) = .ok (2 * PGSIZE, vm₁, d₁) ∧ vm₁.deallocuvm d₁ (2 * PGSIZE) PGSIZE = .ok (PGSIZE, vm₂, d₂) ∧
    Resized Sane (roomy 1028) vm₂ d₂ ∧ vm₂.freevm d₂ = .ok vm' ∧ vm'.free.Perm (roomy 1028).free := by
  have hv := roomy_valid (n := 1028) (by decide)
  have hn := roomy_nodup 1028
  obtain ⟨d, vm, hset, hroom, hlow, -⟩ := setupkvm_room (n := 3) (roomy 1028) (by rw [roomy, List.length_range']) (by decide) (by decide)
  obtain ⟨vm₁, d₁, halloc, -⟩ := Room.allocuvm (n := 1) 0 (2 * PGSIZE) (by decide) (by decide) (by decide) hroom
    fun u _ hu => hlow u (mul_pgsize_lt hu (by decide))
  have htab : Sane vm d (.alloc 0 (2 * PGSIZE)) := fun v hwithin hopens _ => by
    have hround : pgroundup 0 / PGSIZE = 0 := by decide
    rw [hround] at hopens ⊢
    -- the second page is in the page table of the first
    obtain rfl : v = 0 := by
      by_contra hne
      refine hopens.2 0 (Nat.le_refl 0) (Nat.pos_of_ne_zero hne) ?_
      have hlt := hwithin.2
      simp only [PGSIZE, NPTENTRIES] at *
      omega
    have := hroom.pages
    rw [Pgdir.calls_self, Ne, List.drop_eq_nil_iff]
    omega
  have hgrown : Resized Sane (roomy 1028) vm₁ d₁ := .call (.alloc 0 (2 * PGSIZE)) (.setup hset) htab ⟨_, halloc, by decide⟩
  have hb := hgrown.balanced (by decide) (by decide) hv hn
  obtain ⟨vm₂, d₂, hdealloc, -⟩ := deallocuvm_freed (by rw [hb.kend]; decide) (hb.backed hv) (show PGSIZE < 2 * PGSIZE by decide) (by decide)
  have hshrunk : Resized Sane (roomy 1028) vm₂ d₂ := .call (.dealloc (2 * PGSIZE) PGSIZE) hgrown (by decide : _ ≤ KERNBASE) ⟨_, hdealloc⟩
  obtain ⟨vm', hr, hp⟩ := freevm_conserves (by decide) (by decide) hv hn hshrunk
  exact ⟨d, vm, d₁, vm₁, d₂, vm₂, vm', hset, halloc, hdealloc, hshrunk, hr, hp⟩

/-- The last free page is taken for a page of the process that has no page table; it is not freed with the process. -/
theorem freevm_loses_page : ∃ d vm, Resized (fun _ _ _ => True) (roomy 1028) vm d ∧
    ¬∃ vm', vm.freevm d = .ok vm' ∧ vm'.free.Perm (roomy 1028).free := by
  obtain ⟨d, vm, hset, hmin, hmax⟩ := setupkvm_roomy
  have hf := setupkvm_fresh (by decide) hset
  have hv := roomy_valid (n := 1028) (by decide)
  have hn := roomy_nodup 1028
  have hb : Balanced (roomy 1028) vm d := ⟨hf.kend, hf.sparse, hf.pages⟩
  have hS := hb.supply hv hn
  -- from this page on, one page is left when the second page table is needed
  obtain ⟨v₀, hv₀⟩ : ∃ v₀, v₀ = 1026 - vm.free.length := ⟨_, rfl⟩
  have hround : pgroundup (v₀ * PGSIZE) / PGSIZE = v₀ := by
    simp only [pgroundup, PGSIZE]
    omega
  have hsz : 1025 * PGSIZE < KERNBASE := by decide
  have hle : v₀ * PGSIZE ≤ 1025 * PGSIZE := Nat.mul_le_mul_right PGSIZE (by omega)
  obtain ⟨left, v, taken, vm₁, d₁, harr, hstop⟩ := (Arrives.of_amid hf.sparse hle hsz).stop hS (Nat.le_of_lt hsz)
  rw [hround] at harr hstop
  have hopens : d.Opens v₀ 1024 := by
    refine ⟨hf.table 1 (by decide), fun u _ hu => ?_⟩
    simp only [NPTENTRIES]
    omega
  have hopenings : d.openings v₀ 1024 = {0} := by
    ext i
    rw [Pgdir.mem_openings, Finset.mem_singleton]
    constructor
    · rintro ⟨⟨u, -, hu, rfl⟩, -⟩
      simp only [NPTENTRIES]
      omega
    · rintro rfl
      exact ⟨⟨1023, by omega, by omega, rfl⟩, hf.table 0 (by decide)⟩
  have hcalls : d.calls v₀ 1024 = vm.free.length - 1 := by
    rw [Pgdir.calls, hopenings, Finset.card_singleton]
    omega
  have hunmapped : ∀ u, Within v₀ (1025 * PGSIZE) u → d.pte u = none := fun u hu =>
    hf.low u (mul_pgsize_lt hu.2 (Nat.le_of_lt hsz))
  have hlt : 1024 * PGSIZE < 1025 * PGSIZE := by decide
  have hno : vm.free.drop (d.calls v₀ 1024 + 1) = [] := List.drop_eq_nil_iff.mpr (by omega)
  obtain rfl : v = 1024 := harr.at_noTable hstop hunmapped ⟨by omega, hlt⟩ hopens (fun j hj hd => by
    have := List.drop_eq_nil_iff.mp hd
    omega) hno
  obtain ⟨q, rest, hdata⟩ := List.exists_cons_of_ne_nil (fun hd => by
    have := List.drop_eq_nil_iff.mp hd
    omega : vm.free.drop (d.calls v₀ 1024) ≠ [])
  obtain ⟨left, rfl⟩ := harr.left_pos hlt
  have hg := harr.grown
  have hres := (harr.noTable hlt hdata hopens hno).trans (allocuvmAmidFrom_done (le_refl (1025 * PGSIZE)))
  have hr := allocuvm_eq_amid vm d (v₀ * PGSIZE) (1025 * PGSIZE)
  rw [hres] at hr
  refine ⟨d₁, _, .call (.alloc (v₀ * PGSIZE) (1025 * PGSIZE)) (.setup hset) trivial
    ⟨_, hr, (by decide : 1025 * PGSIZE ≠ 0)⟩, ?_⟩
  rintro ⟨vm', hr', hperm⟩
  have hpages : d₁.pages = (vm.free.take (vm.free.length - 1) : Multiset Nat) + d.pages := by
    rw [hg.pages, held_heads _ _ (by omega), hcalls]
  have hvalid : ∀ p ∈ d₁.pages, Valid (roomy 1028) p := fun p hp => by
    rw [hpages, Multiset.mem_add, Multiset.mem_coe] at hp
    refine hv p ?_
    rw [← Multiset.mem_coe, ← hf.pages, Multiset.mem_add, Multiset.mem_coe]
    exact hp.imp_left List.mem_of_mem_take
  have hkend : vm₁.kend = (roomy 1028).kend := hg.kend.trans hf.kend
  have hempty : vm.free.drop (d.calls v₀ 1024 + 2) = [] := List.drop_eq_nil_iff.mpr (by omega)
  rw [hempty] at hr'
  have hbacked : d₁.Backed { vm₁ with mem := Function.update vm₁.mem q .zero, free := [] } := ⟨hg.sparse, fun p hp => by
    have := hvalid p (Multiset.mem_cons_of_mem (Multiset.mem_add.mpr (.inr hp)))
    rwa [Valid, hkend]⟩
  obtain ⟨vm₂, hr₂, hfree⟩ := freevm_free (by rw [hkend]; decide) hbacked fun p hp => by
    have := hvalid p hp
    rwa [Valid, hkend]
  rw [hr₂] at hr'
  cases hr'
  have hcard := congrArg Multiset.card hfree
  have hcard₀ := congrArg Multiset.card hf.pages
  rw [hpages, Multiset.card_add, Multiset.card_add, Multiset.coe_card, Multiset.coe_card, Multiset.coe_card, List.length_take,
    hperm.length_eq] at hcard
  rw [Multiset.card_add, Multiset.coe_card, Multiset.coe_card] at hcard₀
  simp only [List.length_nil] at hcard
  omega

end Vm
end Xv6
