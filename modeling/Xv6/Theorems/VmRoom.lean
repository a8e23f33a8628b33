import Xv6.Theorems.Vm

/-! With enough free pages an address space can be set up, and one that is made of pages of the allocator can be taken
    down. -/

namespace Xv6
open Bytes
open Function (update)
open Outcome (ok_bind)

namespace Vm
variable {vm vm' : Vm} {d d' : Pgdir} {n v p : Nat}

/-! ### Room for page tables -/

def missing (d : Pgdir) : Finset Nat := (Finset.range NPTENTRIES).filter fun i => d.table i = none

/-- There is a free page for each missing table, and for `n` pages more; where there is no table there is no entry. -/
structure Room (n : Nat) (vm : Vm) (d : Pgdir) : Prop where
  pages : (missing d).card + n ≤ vm.free.length
  sparse : ∀ v, d.table (v / NPTENTRIES) = none → d.pte v = none

theorem Room.of_le {m : Nat} (h : Room n vm d) (hm : m ≤ n) : Room m vm d := ⟨by have := h.pages; omega, h.sparse⟩

theorem Room.setPte (h : Room n vm d) (ht : d.table (v / NPTENTRIES) ≠ none) (e : Option Pte) : Room n vm (setPte d v e) := by
  refine ⟨h.pages, fun u hu => ?_⟩
  by_cases huv : u = v
  · subst huv
    exact absurd hu ht
  · rw [pte_setPte_of_ne d huv]
    exact h.sparse u hu

theorem Room.walkpgdir (h : Room n vm d) (hv : v / NPTENTRIES < NPTENTRIES) :
    ∃ vm' d', vm.walkpgdir d v true = some (vm', d') ∧ Room n vm' d' ∧ d'.table (v / NPTENTRIES) ≠ none ∧
      d'.pte = d.pte ∧ vm'.mem = vm.mem := by
  by_cases ht : d.table (v / NPTENTRIES) = none
  · have hmem : v / NPTENTRIES ∈ missing d := Finset.mem_filter.mpr ⟨Finset.mem_range.mpr hv, ht⟩
    have hcard : 0 < (missing d).card := Finset.card_pos.mpr ⟨_, hmem⟩
    obtain ⟨t, free, hfree⟩ := List.exists_cons_of_length_pos (l := vm.free) (by have := h.pages; omega)
    refine ⟨{ vm with free := free }, { d with
      table := update d.table (v / NPTENTRIES) (some t)
      pte := fun u => if u / NPTENTRIES = v / NPTENTRIES then none else d.pte u }, ?_, ?_, ?_, ?_, rfl⟩
    · simp only [Vm.walkpgdir, ht, kalloc, hfree, Bool.true_eq_false, if_false]
    · constructor
      · have herase : missing { d with
            table := update d.table (v / NPTENTRIES) (some t)
            pte := fun u => if u / NPTENTRIES = v / NPTENTRIES then none else d.pte u } = (missing d).erase (v / NPTENTRIES) := by
          ext i
          by_cases hi : i = v / NPTENTRIES
          · subst hi
            simp [missing]
          · simp [missing, hi]
        have := h.pages
        rw [herase, Finset.card_erase_of_mem hmem]
        rw [hfree, List.length_cons] at this
        dsimp only
        omega
      · intro u hu
        dsimp only at hu ⊢
        split
        · rfl
        · rename_i hne
          rw [Function.update_of_ne hne] at hu
          exact h.sparse u hu
    · simp
    · funext u
      dsimp only
      split
      · rename_i heq
        exact (h.sparse u (heq ▸ ht)).symm
      · rfl
  · exact ⟨vm, d, walkpgdir_of_table ht, h, ht, rfl, rfl⟩

theorem Room.mappages (writable user : Bool) : ∀ (count : Nat) {vm : Vm} {d : Pgdir} {v p : Nat}, Room n vm d →
    v + count ≤ NPTENTRIES * NPTENTRIES → (∀ u, v ≤ u → u < v + count → d.pte u = none) →
    ∃ vm' d', mappages writable user count vm d v p = .ok (true, vm', d') ∧ Room n vm' d' ∧
      (∀ u, d'.pte u = if v ≤ u ∧ u < v + count then some ⟨p + (u - v), writable, user⟩ else d.pte u) ∧ vm'.mem = vm.mem
  | 0, vm, d, v, p, h, _, _ => ⟨vm, d, rfl, h, fun u => by rw [if_neg (by omega)], rfl⟩
  | count + 1, vm, d, v, p, h, hv, hnone => by
    have hdiv : v / NPTENTRIES < NPTENTRIES := Nat.div_lt_of_lt_mul (by omega)
    obtain ⟨vm₁, d₁, hw, h₁, ht, hpte, hmem⟩ := h.walkpgdir hdiv
    have hfree : d₁.pte v = none := by
      rw [hpte]
      exact hnone v (le_refl v) (by omega)
    obtain ⟨vm₂, d₂, hmap, h₂, hpte₂, hmem₂⟩ := Room.mappages writable user (p := p + 1) count (h₁.setPte ht (some ⟨p, writable, user⟩))
      (v := v + 1) (by omega) fun u hlo hhi => by
        rw [pte_setPte_of_ne d₁ (by omega), hpte]
        exact hnone u (by omega) (by omega)
    refine ⟨vm₂, d₂, ?_, h₂, fun u => ?_, hmem₂.trans hmem⟩
    · rw [Vm.mappages, hw]
      simp only [hfree, Option.isSome_none, Bool.false_eq_true, if_false]
      exact hmap
    · rw [hpte₂]
      by_cases hu : u = v
      · subst hu
        rw [if_neg (by omega), pte_setPte_self, if_pos (by omega), Nat.sub_self, Nat.add_zero]
      · by_cases hin : v + 1 ≤ u ∧ u < v + 1 + count
        · rw [if_pos hin, if_pos (by omega), show p + 1 + (u - (v + 1)) = p + (u - v) by omega]
        · rw [if_neg hin, if_neg (by omega), pte_setPte_of_ne d₁ hu, hpte]

/-! ### A new address space -/

theorem Room.setupkvmFrom : ∀ (ks : List (Nat × Nat × Nat × Bool)) {vm : Vm} {d : Pgdir} (v : Nat), Room n vm d →
    (∀ u, v ≤ u → d.pte u = none) → List.Pairwise (fun a b => a.1 + a.2.2.1 ≤ b.1) ks →
    (∀ k ∈ ks, v ≤ k.1 ∧ k.1 + k.2.2.1 ≤ NPTENTRIES * NPTENTRIES) →
    ∃ d' vm', setupkvmFrom ks vm d = .ok (some d', vm') ∧ Room n vm' d' ∧ (∀ u < v, d'.pte u = d.pte u) ∧ vm'.mem = vm.mem
  | [], vm, d, _, h, _, _, _ => ⟨d, vm, rfl, h, fun _ _ => rfl, rfl⟩
  | (v₁, p₁, n₁, w₁) :: ks, vm, d, v, h, hnone, hpair, hks => by
    obtain ⟨hlo, hhi⟩ := hks _ List.mem_cons_self
    obtain ⟨hfirst, hrest⟩ := List.pairwise_cons.mp hpair
    dsimp only at hlo hhi hfirst
    obtain ⟨vm₁, d₁, hmap, h₁, hpte, hmem⟩ := h.mappages w₁ false n₁ (p := p₁) hhi
      fun u hu _ => hnone u (by omega)
    obtain ⟨d₂, vm₂, hset, h₂, hsame, hmem₂⟩ := Room.setupkvmFrom ks (v₁ + n₁) h₁
      (fun u hu => by rw [hpte, if_neg (by omega)]; exact hnone u (by omega)) hrest
      fun k hk => ⟨hfirst k hk, (hks k (List.mem_cons_of_mem _ hk)).2⟩
    refine ⟨d₂, vm₂, ?_, h₂, fun u hu => ?_, hmem₂.trans hmem⟩
    · rw [Vm.setupkvmFrom, hmap]
      exact hset
    · rw [hsame u (by omega), hpte, if_neg (by omega)]

theorem card_missing_empty (p : Nat) : (missing { dir := p, table := fun _ => none, pte := fun _ => none }).card = NPTENTRIES := by
  simp [missing]

theorem setupkvm_room (vm : Vm) (hroom : NPTENTRIES + 1 + n ≤ vm.free.length) (hlo : EXTMEM / PGSIZE ≤ vm.data)
    (hhi : vm.data ≤ PHYSTOP / PGSIZE) :
    ∃ d vm', vm.setupkvm = .ok (some d, vm') ∧ Room n vm' d ∧ (∀ u < KERNPAGE, d.pte u = none) ∧ vm'.mem = vm.mem := by
  obtain ⟨p, free, hfree⟩ := List.exists_cons_of_length_pos (l := vm.free) (by omega)
  have hroom' : Room n { vm with free := free } { dir := p, table := fun _ => none, pte := fun _ => none } := by
    refine ⟨?_, fun _ _ => rfl⟩
    rw [card_missing_empty]
    rw [hfree, List.length_cons] at hroom
    dsimp only
    omega
  obtain ⟨d, vm', hset, h, hlow, hmem⟩ := hroom'.setupkvmFrom vm.kmap KERNPAGE (fun _ _ => rfl)
    (by simp [kmap, KERNBASE, KERNLINK, DEVSPACE, EXTMEM, PHYSTOP, PGSIZE] at *; omega)
    (by simp [kmap, KERNPAGE, KERNBASE, KERNLINK, DEVSPACE, EXTMEM, PHYSTOP, PGSIZE, NPTENTRIES] at *; omega)
  refine ⟨d, vm', ?_, h, hlow, hmem⟩
  rw [setupkvm, kalloc, hfree]
  exact hset

theorem Room.table_ne {e : Pte} (h : Room n vm d) (he : d.pte v = some e) : d.table (v / NPTENTRIES) ≠ none := fun ht => by
  rw [h.sparse v ht] at he
  cases he

theorem Room.allocuvmFrom {oldsz newsz : Nat} (hsz : newsz ≤ KERNBASE) : ∀ (left : Nat) {vm : Vm} {d : Pgdir} (a : Nat),
    a % PGSIZE = 0 → newsz ≤ a + left * PGSIZE → Room (n + (newsz + PGSIZE - 1 - a) / PGSIZE) vm d →
    (∀ u, a / PGSIZE ≤ u → u * PGSIZE < newsz → d.pte u = none) →
    ∃ vm' d', allocuvmFrom oldsz newsz left vm d a = .ok (newsz, vm', d') ∧ Room n vm' d' ∧
      (∀ u < a / PGSIZE, d'.pte u = d.pte u) ∧
      (∀ u, a / PGSIZE ≤ u → u * PGSIZE < newsz → ∃ q, d'.pte u = some ⟨q, true, true⟩)
  | 0, vm, d, a, _, hleft, h, _ => by
    refine ⟨vm, d, rfl, h.of_le (Nat.le_add_right _ _), fun _ _ => rfl, fun u hu hlt => ?_⟩
    simp only [PGSIZE] at *
    omega
  | left + 1, vm, d, a, ha, hleft, h, hnone => by
    rw [Vm.allocuvmFrom]
    by_cases hlt : a < newsz
    · have hone : n + (newsz + PGSIZE - 1 - a) / PGSIZE = n + (newsz + PGSIZE - 1 - (a + PGSIZE)) / PGSIZE + 1 := by
        simp only [PGSIZE] at *
        omega
      have hdiv : (a + PGSIZE) / PGSIZE = a / PGSIZE + 1 := by
        simp only [PGSIZE]
        omega
      have hback : a / PGSIZE * PGSIZE = a := by
        simp only [PGSIZE] at *
        omega
      rw [hone] at h
      have hfree : 0 < vm.free.length := Nat.lt_of_lt_of_le (Nat.lt_of_lt_of_le (Nat.succ_pos _) (Nat.le_add_left _ _)) h.pages
      obtain ⟨p, free, hfree⟩ := List.exists_cons_of_length_pos hfree
      have h₁ : Room (n + (newsz + PGSIZE - 1 - (a + PGSIZE)) / PGSIZE)
          { vm with free := free, mem := update vm.mem p .zero } d := by
        refine ⟨?_, h.sparse⟩
        have := h.pages
        rw [hfree, List.length_cons] at this
        dsimp only
        omega
      have hpage : a / PGSIZE + 1 ≤ NPTENTRIES * NPTENTRIES := by
        simp only [PGSIZE, NPTENTRIES, KERNBASE] at *
        omega
      obtain ⟨vm₂, d₂, hmap, h₂, hpte, -⟩ := h₁.mappages true true 1 (p := p) hpage fun u hlo hhi =>
        hnone u hlo (by rw [show u = a / PGSIZE by omega, hback]; exact hlt)
      obtain ⟨vm₃, d₃, halloc, h₃, hsame, hmapped⟩ := Room.allocuvmFrom hsz left (a + PGSIZE) (by simp only [PGSIZE] at *; omega)
        (by simp only [PGSIZE] at *; omega) h₂ fun u hlo hhi => by
          rw [hdiv] at hlo
          rw [hpte, if_neg (by omega)]
          exact hnone u (by omega) hhi
      rw [hdiv] at hsame hmapped
      refine ⟨vm₃, d₃, ?_, h₃, fun u hu => ?_, fun u hu hhi => ?_⟩
      · rw [if_pos hlt, kalloc, hfree]
        dsimp only
        rw [hmap]
        exact halloc
      · rw [hsame u (by omega), hpte, if_neg (by omega)]
      · by_cases hu' : u = a / PGSIZE
        · exact ⟨p, by rw [hsame u (by omega), hpte, if_pos (by omega), hu', Nat.sub_self, Nat.add_zero]⟩
        · exact hmapped u (by omega) hhi
    · refine ⟨vm, d, if_neg hlt, h.of_le (Nat.le_add_right _ _), fun _ _ => rfl, fun u hu hlt' => ?_⟩
      simp only [PGSIZE] at *
      omega

theorem Room.allocuvm (oldsz newsz : Nat) (hle : oldsz ≤ newsz) (hsz : newsz < KERNBASE) (hold : oldsz % PGSIZE = 0)
    (h : Room (n + (newsz + PGSIZE - 1 - oldsz) / PGSIZE) vm d)
    (hnone : ∀ u, oldsz / PGSIZE ≤ u → u * PGSIZE < newsz → d.pte u = none) :
    ∃ vm' d', vm.allocuvm d oldsz newsz = .ok (newsz, vm', d') ∧ Room n vm' d' ∧
      (∀ u < oldsz / PGSIZE, d'.pte u = d.pte u) ∧
      (∀ u, oldsz / PGSIZE ≤ u → u * PGSIZE < newsz → ∃ q, d'.pte u = some ⟨q, true, true⟩) := by
  have hup : pgroundup oldsz = oldsz := by
    simp only [pgroundup, PGSIZE, KERNBASE] at *
    omega
  rw [Vm.allocuvm, if_neg (by omega), if_neg (by omega), hup]
  exact Room.allocuvmFrom (by omega) _ _ hold (by simp only [PGSIZE]; omega) h hnone

/-! ### Taking it down -/

/-- A page that `kfree` takes. -/
def Valid (vm : Vm) (p : Nat) : Prop := vm.kend ≤ p ∧ p < PHYSTOP / PGSIZE

theorem kfree_ok (h : Valid vm p) : ∃ vm', vm.kfree p = .ok vm' ∧ vm'.kend = vm.kend := by
  have hno : ¬(p < vm.kend ∨ PHYSTOP / PGSIZE ≤ p) := by
    obtain ⟨hlo, hhi⟩ := h
    omega
  exact ⟨_, if_neg hno, rfl⟩

theorem deallocuvmFrom_ok {oldsz : Nat} (hkend : 0 < vm.kend) (hsz : oldsz ≤ KERNBASE) : ∀ (left : Nat) {vm₁ : Vm}
    {d : Pgdir} (a : Nat), vm₁.kend = vm.kend → d.Owns (Valid vm) →
    ∃ r, deallocuvmFrom oldsz left vm₁ d a = .ok r ∧ r.1.kend = vm.kend ∧ r.2.Owns (Valid vm)
  | 0, vm₁, d, _, hk, hd => ⟨(vm₁, d), rfl, hk, hd⟩
  | left + 1, vm₁, d, a, hk, hd => by
    rw [Vm.deallocuvmFrom]
    split
    · rename_i ha
      split
      · exact deallocuvmFrom_ok hkend hsz left _ hk hd
      · split
        · exact deallocuvmFrom_ok hkend hsz left _ hk hd
        · rename_i e he
          have hvalid : Valid vm e.page := hd.low _ e he (div_lt_kernpage (Nat.lt_of_lt_of_le ha hsz))
          have hvalid₁ : Valid vm₁ e.page := ⟨hk ▸ hvalid.1, hvalid.2⟩
          obtain ⟨vm₂, hfree, hk₂⟩ := kfree_ok hvalid₁
          rw [if_neg (by have := hvalid.1; omega), hfree, ok_bind]
          exact deallocuvmFrom_ok hkend hsz left _ (hk₂.trans hk) (hd.setPte (e := none) fun _ hx => by cases hx)
    · exact ⟨(vm₁, d), rfl, hk, hd⟩

theorem freeTables_ok (hd : d.Owns (Valid vm)) : ∀ (is : List Nat) {vm₁ : Vm}, vm₁.kend = vm.kend →
    ∃ vm₂, freeTables d is vm₁ = .ok vm₂ ∧ vm₂.kend = vm.kend
  | [], vm₁, hk => ⟨vm₁, rfl, hk⟩
  | i :: is, vm₁, hk => by
    rw [Vm.freeTables]
    split
    · exact freeTables_ok hd is hk
    · rename_i t ht
      have hvalid := hd.table i t ht
      have hvalid₁ : Valid vm₁ t := ⟨hk ▸ hvalid.1, hvalid.2⟩
      obtain ⟨vm₂, hfree, hk₂⟩ := kfree_ok hvalid₁
      rw [hfree, ok_bind]
      exact freeTables_ok hd is (hk₂.trans hk)

theorem freevm_ok (hkend : 0 < vm.kend) (hd : d.Owns (Valid vm)) : ∃ vm', vm.freevm d = .ok vm' := by
  have hdealloc : ∃ r, vm.deallocuvm d KERNBASE 0 = .ok r ∧ r.2.1.kend = vm.kend ∧ r.2.2.Owns (Valid vm) := by
    obtain ⟨r, hr, hk, hd⟩ := @deallocuvmFrom_ok vm KERNBASE hkend (le_refl KERNBASE) (KERNBASE / PGSIZE + 1) vm d (pgroundup 0) rfl hd
    refine ⟨(0, r), ?_, hk, hd⟩
    rw [deallocuvm, if_neg (by decide), hr]
    rfl
  obtain ⟨⟨sz, vm₁, d₁⟩, hr, hk, hd₁⟩ := hdealloc
  dsimp only at hk hd₁
  obtain ⟨vm₂, htables, hk₂⟩ := freeTables_ok hd₁ (List.range NPTENTRIES) hk
  have hvalid : Valid vm₂ d₁.dir := ⟨hk₂ ▸ hd₁.dir.1, hd₁.dir.2⟩
  obtain ⟨vm₃, hfree, -⟩ := kfree_ok hvalid
  refine ⟨vm₃, ?_⟩
  rw [freevm, hr, ok_bind]
  dsimp only
  rw [htables, ok_bind, hfree]

theorem write_ok (vm : Vm) (h : p < PHYSTOP / PGSIZE) (off : Nat) (bs : List UInt8) : ∃ vm', vm.write p off bs = .ok vm' :=
  ⟨_, if_neg (by omega)⟩

end Vm
end Xv6
