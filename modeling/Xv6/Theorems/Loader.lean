import Xv6.Theorems.Copyuvm
import Xv6.Theorems.ExecRuns

/-! What `exec` makes of an executable file: where `loaduvm` stores, and that nothing but the file system can make it panic. -/

namespace Xv6
open Bytes
open Outcome (ok_bind)

namespace Loader
open Kernel (Segments Straight)
open Vm
variable {o : Others} {b : Build} {vm vm' : Vm} {d d' cur : Pgdir} {ip : InodeIdx} {k : Kernel}

/-! ### Without others -/

theorem loaduvmFrom_out (devsw : DevSw) (d : Pgdir) (ip : InodeIdx) (addr offset sz : Nat) : ∀ (left : Nat) (vm : Vm) (fs : Fs) (i : Nat),
    (loaduvmFrom devsw d ip addr offset sz left vm fs i).out = Vm.loaduvmFrom devsw d ip addr offset sz left vm fs i
  | 0, _, _, _ => rfl
  | left + 1, vm, fs, i => by
    rw [loaduvmFrom, Vm.loaduvmFrom]
    split
    · cases vm.walkpgdir d ((addr + i) % 2 ^ 32 / PGSIZE) false with
      | none => rfl
      | some _ =>
        simp only [Traced.out_bind, Traced.out_tell, Traced.out_lift, ok_bind]
        refine bind_congr fun r => bind_congr fun vm => ?_
        split
        · rfl
        · exact loaduvmFrom_out devsw d ip addr offset sz left vm r.2.2 (i + PGSIZE)
    · rfl

theorem loaduvm_out (devsw : DevSw) (vm : Vm) (fs : Fs) (d : Pgdir) (ip : InodeIdx) (addr offset sz : Nat) :
    (loaduvm devsw vm fs d ip addr offset sz).out = vm.loaduvm devsw fs d ip addr offset sz := by
  rw [loaduvm, Vm.loaduvm]
  split
  · rfl
  · exact loaduvmFrom_out ..

theorem load_out (b : Build) (ip : InodeIdx) : ∀ (left : Nat) (k : Kernel) (d : Pgdir) (sz : Nat) (off : UInt32) (ph : List UInt8),
    (load Vm.allocuvm b ip left k d sz off ph).out = Kernel.load b ip left k d sz off ph
  | 0, _, _, _, _, _ => rfl
  | left + 1, k, d, sz, off, ph => by
    rw [load, Kernel.load]
    simp only [Traced.out_bind, Traced.out_lift]
    refine bind_congr fun r => ?_
    split
    · rfl
    split
    · exact load_out ..
    split
    · rfl
    simp only [Traced.out_bind, Traced.out_lift]
    refine bind_congr fun r => ?_
    split
    · rfl
    simp only [Traced.out_bind, loaduvm_out]
    refine bind_congr fun r => ?_
    split
    · rfl
    · exact load_out ..

/-- With the `allocuvm` of a machine on which nobody else allocates memory, it is `exec`. -/
theorem exec_out (b : Build) (k : Kernel) (path : List UInt8) (argv : List (List UInt8)) :
    (exec Vm.allocuvm b k path argv).out = k.exec b path argv := by
  unfold exec Kernel.exec
  cases k.proc.pgdir with
  | none => rfl
  | some cur =>
  simp only [execIn, Kernel.execIn, Traced.out_bind, Traced.out_lift]
  refine bind_congr fun r => ?_
  cases r.1 with
  | none => rfl
  | some ip =>
  simp only [Traced.out_bind, Traced.out_lift]
  refine bind_congr fun fs => bind_congr fun r => ?_
  split
  · rfl
  split
  · rfl
  simp only [Traced.out_bind, Traced.out_lift]
  refine bind_congr fun r => ?_
  cases r.1 with
  | none => rfl
  | some d =>
  simp only [Traced.out_bind, load_out]
  refine bind_congr fun r => ?_
  cases r.1 with
  | none => rfl
  | some sz => rw [Traced.out_bind]; rfl

/-- The free lists that `allocuvm` finds then are those that its own calls leave. -/
theorem allocuvmFrom_alone (oldsz newsz left : Nat) : ∀ (vm : Vm) (d : Pgdir) (v : Nat), ∃ o₁ : Others, ∀ o : Others,
    (∀ u, v ≤ u → o.page u = o₁.page u ∧ o.table u = o₁.table u) →
      allocuvmFrom o oldsz newsz left vm d (v * PGSIZE) = Vm.allocuvmFrom oldsz newsz left vm d (v * PGSIZE) := by
  induction left with
  | zero => exact fun _ _ _ => ⟨⟨fun _ => [], fun _ => []⟩, fun _ _ => rfl⟩
  | succ left ih =>
    intro vm d v
    have hdiv : v * PGSIZE / PGSIZE = v := Nat.mul_div_cancel v (by decide)
    have hnext : v * PGSIZE + PGSIZE = (v + 1) * PGSIZE := (Nat.succ_mul v PGSIZE).symm
    by_cases hlt : v * PGSIZE < newsz
    · simp only [allocuvmFrom, Vm.allocuvmFrom, if_pos hlt, hdiv, hnext]
      cases hk : vm.kalloc with
      | none =>
        refine ⟨⟨fun _ => vm.free, fun _ => []⟩, fun o ho => ?_⟩
        rw [(ho v (Nat.le_refl v)).1, hk]
      | some r =>
        obtain ⟨p, vm₁⟩ := r
        cases hmap : mappages true true 1 { vm₁ with mem := Function.update vm₁.mem p .zero } d v p with
        | sleep | panic msg =>
          refine ⟨⟨fun _ => vm.free, fun _ => vm₁.free⟩, fun o ho => ?_⟩
          rw [(ho v (Nat.le_refl v)).1, (ho v (Nat.le_refl v)).2, hk]
          dsimp only
          rw [hmap]
          rfl
        | ok r =>
          obtain ⟨ok, vm₂, d₂⟩ := r
          obtain ⟨o₁, hrest⟩ := ih vm₂ d₂ (v + 1)
          refine ⟨⟨Function.update o₁.page v vm.free, Function.update o₁.table v vm₁.free⟩, fun o ho => ?_⟩
          obtain ⟨hpage, htable⟩ := ho v (Nat.le_refl v)
          rw [hpage.trans (Function.update_self ..), htable.trans (Function.update_self ..), hk]
          dsimp only
          rw [hmap]
          refine hrest o fun u hu => ?_
          have hne : u ≠ v := by omega
          rw [(ho u (by omega)).1, (ho u (by omega)).2]
          exact ⟨Function.update_of_ne hne .., Function.update_of_ne hne ..⟩
    · refine ⟨⟨fun _ => [], fun _ => []⟩, fun o _ => ?_⟩
      rw [allocuvmFrom, Vm.allocuvmFrom, if_neg hlt, if_neg hlt]

theorem allocuvm_alone (vm : Vm) (d : Pgdir) (oldsz newsz : Nat) : ∃ o, allocuvm o vm d oldsz newsz = vm.allocuvm d oldsz newsz := by
  obtain ⟨o, hsame⟩ := allocuvmFrom_alone oldsz newsz (newsz / PGSIZE + 1) vm d (pgroundup oldsz / PGSIZE)
  rw [pgroundup_div_mul] at hsame
  exact ⟨o, by rw [allocuvm, Vm.allocuvm, hsame o fun _ _ => ⟨rfl, rfl⟩]⟩

/-! ### Where `loaduvm` stores -/

theorem loaduvmFrom_mem (devsw : DevSw) (d : Pgdir) (ip : InodeIdx) (addr offset sz : Nat) {p : Nat} :
    ∀ (left : Nat) (vm : Vm) (fs : Fs) (i : Nat), (∀ e ∈ (loaduvmFrom devsw d ip addr offset sz left vm fs i).trace, e.page ≠ p) →
      (Vm.loaduvmFrom devsw d ip addr offset sz left vm fs i).Ensures fun r => r.2.1.mem p = vm.mem p
  | 0, _, _, _, _ => rfl
  | left + 1, vm, fs, i, h => by
    rw [loaduvmFrom] at h
    rw [Vm.loaduvmFrom]
    split at h
    · rename_i hi
      rw [if_pos hi]
      cases hw : vm.walkpgdir d ((addr + i) % 2 ^ 32 / PGSIZE) false with
      | none => trivial
      | some x =>
        rw [hw] at h
        generalize hq : ((d.pte ((addr + i) % 2 ^ 32 / PGSIZE)).map Pte.page).getD 0 = q at h ⊢
        generalize hn : min (sz - i) PGSIZE = n at h ⊢
        dsimp only at h ⊢
        have hne : q ≠ p := h ⟨d, q⟩ (by rw [Traced.trace_bind_ok rfl]; exact List.mem_cons_self)
        cases hread : fs.readi devsw ip (.ofNat (offset + i)) (.ofNat n) with
        | sleep | panic msg => trivial
        | ok r =>
        obtain ⟨r, bs, fs₁⟩ := r
        rw [ok_bind]
        dsimp only
        cases hwrite : vm.write q 0 bs with
        | sleep | panic msg => trivial
        | ok vm₁ =>
        rw [ok_bind]
        have hsame : vm₁.mem p = vm.mem p := by
          unfold Vm.write at hwrite
          split at hwrite <;> cases hwrite
          exact Function.update_of_ne hne.symm ..
        split
        · exact hsame
        · rename_i hr
          refine (loaduvmFrom_mem devsw d ip addr offset sz left vm₁ fs₁ (i + PGSIZE) fun e he => h e ?_).mono
            fun r' hr' => hr'.trans hsame
          rw [Traced.trace_bind_ok rfl, Traced.trace_bind_ok hread, Traced.trace_bind_ok hwrite, if_neg hr]
          exact List.mem_cons_of_mem _ he
    · rename_i hi
      rw [if_neg hi]
      rfl

theorem loaduvm_spares_page : ∃ devsw d fs, (∃ r, Vm.loaduvmFrom devsw d 0 0 0 1 1 noMemory fs 0 = .ok r ∧ r.2.1.mem 5 0 = 7) ∧
    (Vm.loaduvmFrom devsw d 0 0 0 1 1 noMemory fs 0).Ensures fun r => r.2.1.mem 6 = .zero :=
  ⟨⟨fun _ => some fun _ n => (n.toNat, [7]), fun _ => none⟩, ⟨4, fun _ => some 3, fun _ => some ⟨5, true, true⟩⟩,
    { Fs.blank with inode := fun _ => { type := 3, dev := 1, inum := 1, ref := 1, busy := true, valid := true } }, by decide +kernel,
    loaduvmFrom_mem _ _ _ _ _ _ 1 noMemory _ 0 (by decide +kernel)⟩

/-! ### The image -/

theorem pgroundup_mono {a c : Nat} (h : a ≤ c) (hc : c ≤ KERNBASE) : pgroundup a / PGSIZE ≤ pgroundup c / PGSIZE := by
  simp only [pgroundup, KERNBASE, PGSIZE] at *
  omega

/-- The user has page `v`, in the physical page that `kalloc` gave for it. -/
def Holds (o : Others) (d : Pgdir) (v : Nat) : Prop :=
  ∃ e, d.pte v = some e ∧ e.user = true ∧ (o.page v).head? = some e.page

/-- The user has the pages before `n`, and none is mapped between them and the kernel, where no page table is either; the
    kernel's pages are not the user's, and those of the devices have their page tables. -/
structure Image (o : Others) (d : Pgdir) (n : Nat) : Prop where
  sparse : ∀ v, d.table (v / NPTENTRIES) = none → d.pte v = none
  mapped : ∀ v < n, Holds o d v
  rest : ∀ v, n ≤ v → v < KERNPAGE → d.pte v = none
  kernel : ∀ v, KERNPAGE ≤ v → ∀ e, d.pte v = some e → e.user = false
  devices : ∀ v, DEVSPACE / PGSIZE ≤ v → v < 2 ^ 32 / PGSIZE → d.table (v / NPTENTRIES) ≠ none
  tables : ∀ i, n ≤ i * NPTENTRIES → i * NPTENTRIES < KERNPAGE → d.table i = none

theorem Image.map {d₁ : Pgdir} {v p : Nat} (h : Image o d v) (hv : v < KERNPAGE) (hp : (o.page v).head? = some p) (hpte : d₁.pte = d.pte)
    (htable : ∀ i, i ≠ v / NPTENTRIES → d₁.table i = d.table i) (hown : d₁.table (v / NPTENTRIES) ≠ none) :
    Image o (setPte d₁ v (some ⟨p, true, true⟩)) (v + 1) where
  sparse u hu := by
    have hne : u / NPTENTRIES ≠ v / NPTENTRIES := fun heq => hown (heq ▸ hu)
    rw [pte_setPte_of_ne d₁ (mt (congrArg (· / NPTENTRIES)) hne), hpte]
    exact h.sparse u ((htable _ hne).symm.trans hu)
  mapped u hu := by
    by_cases huv : u = v
    · subst huv
      exact ⟨_, pte_setPte_self .., rfl, hp⟩
    · rw [Holds, pte_setPte_of_ne d₁ huv, hpte]
      exact h.mapped u (by omega)
  rest u hle hlt := by
    rw [pte_setPte_of_ne d₁ (by omega), hpte]
    exact h.rest u (by omega) hlt
  kernel u hu e he := by
    rw [pte_setPte_of_ne d₁ (by omega), hpte] at he
    exact h.kernel u hu e he
  devices u hlo hhi := by
    have hne : u / NPTENTRIES ≠ v / NPTENTRIES := by
      simp only [KERNPAGE, KERNBASE, DEVSPACE, PGSIZE, NPTENTRIES] at *
      omega
    exact fun hnone => h.devices u hlo hhi ((htable _ hne).symm.trans hnone)
  tables i hlo hhi := by
    have hne : i ≠ v / NPTENTRIES := by
      simp only [NPTENTRIES] at *
      omega
    exact (htable i hne).trans (h.tables i (by omega) hhi)

theorem Image.table_ne {n v : Nat} (h : Image o d n) (hv : v < n) : d.table (v / NPTENTRIES) ≠ none := fun hnone => by
  obtain ⟨e, he, -⟩ := h.mapped v hv
  rw [h.sparse v hnone] at he
  cases he

/-- `allocuvm` to this size gets the page tables that it asks for. One is asked for when its first page and all pages
    before have been found. -/
def TablesMet (o : Others) (sz : Nat) : Prop :=
  sz < KERNBASE → ∀ v, v * PGSIZE < sz → v % NPTENTRIES = 0 → (∀ u ≤ v, o.page u ≠ []) → o.table v ≠ []

theorem Image.round {v : Nat} (h : Image o d v) (hv : v < KERNPAGE) (vm : Vm) {p : Nat} (hp : (o.page v).head? = some p) (htab : v % NPTENTRIES = 0 → vm.free ≠ []) :
    ∃ vm' d', mappages true true 1 vm d v p = .ok (true, vm', d') ∧ Image o d' (v + 1) := by
  have hidx : v / NPTENTRIES < NPTENTRIES := by
    simp only [KERNPAGE, KERNBASE, PGSIZE, NPTENTRIES] at *
    omega
  have hnone : d.pte v = none := h.rest v (le_refl v) hv
  rw [mappages_one]
  by_cases ht : d.table (v / NPTENTRIES) = none
  · have hfirst : v % NPTENTRIES = 0 := by
      by_contra hmod
      have hsame : (v - 1) / NPTENTRIES = v / NPTENTRIES := by
        simp only [NPTENTRIES] at *
        omega
      have hpos : 0 < v := Nat.pos_of_ne_zero fun h0 => hmod (by rw [h0]; rfl)
      exact h.table_ne (Nat.sub_lt hpos Nat.one_pos) (hsame.symm ▸ ht)
    obtain ⟨t, free, hfree⟩ := List.exists_cons_of_ne_nil (htab hfirst)
    obtain ⟨d₁, hw, -, hpte, htable, -⟩ := walkpgdir_new vm hidx h.sparse ht hfree
    refine ⟨{ vm with free := free }, setPte d₁ v (some ⟨p, true, true⟩), ?_, h.map hv hp hpte (fun i hi => ?_) ?_⟩
    · rw [hw]
      simp only [hpte, hnone, Option.isSome_none, Bool.false_eq_true, if_false]
    · rw [htable, Function.update_of_ne hi]
    · rw [htable, Function.update_self]
      exact Option.some_ne_none t
  · refine ⟨vm, setPte d v (some ⟨p, true, true⟩), ?_, h.map hv hp rfl (fun _ _ => rfl) ht⟩
    rw [walkpgdir_of_table ht]
    simp only [hnone, Option.isSome_none, Bool.false_eq_true, if_false]

def Finds (o : Others) (P : Nat → Prop) : Prop := ∀ v, (∀ p ∈ o.page v, P p) ∧ ∀ p ∈ o.table v, P p

theorem owns_mono {P Q : Nat → Prop} (h : d.Owns P) (hPQ : ∀ p, P p → Q p) : d.Owns Q :=
  ⟨hPQ _ h.dir, fun i t ht => hPQ _ (h.table i t ht), fun v e he hv => hPQ _ (h.low v e he hv)⟩

section Grows
variable {P : Nat → Prop} {vm₀ : Vm} {newsz : Nat}

theorem deallocuvm_ends (hP : ∀ p, P p → Valid vm₀ p) (hkend : 0 < vm₀.kend) (hb : Building P P vm₀ vm d) (hsz : newsz ≤ KERNBASE)
    (oldsz : Nat) : ∃ r vm' d', vm.deallocuvm d newsz oldsz = .ok (r, vm', d') ∧ Pooled P P vm₀ vm' ∧ d'.Built P := by
  have hex : ∃ r, vm.deallocuvm d newsz oldsz = .ok r := by
    rw [Vm.deallocuvm]
    split
    · exact ⟨_, rfl⟩
    · obtain ⟨r, hr, -⟩ := deallocuvmFrom_ok hkend hsz (newsz / PGSIZE + 1) (pgroundup oldsz) hb.kend (owns_mono hb.built.toOwns hP)
      rw [hr]
      exact ⟨_, rfl⟩
  obtain ⟨⟨r, vm', d'⟩, hr⟩ := hex
  obtain ⟨hpool, hown, hfewer⟩ := (hb.toPooled.deallocuvm (fun _ hp => hp) (fun _ hp => hp) hsz hb.built.toOwns).of_eq_ok hr
  exact ⟨r, vm', d', hr, hpool, hown, fun v e he => hb.built.user v e (hfewer v e he)⟩

theorem allocuvmFrom_image (hP : ∀ p, P p → Valid vm₀ p) (hkend : 0 < vm₀.kend) (hfinds : Finds o P) (htab : TablesMet o newsz)
    (hsz : newsz < KERNBASE) (oldsz left : Nat) : ∀ {vm : Vm} {d : Pgdir} {v : Nat}, Building P P vm₀ vm d → Image o d v →
      v ≤ pgroundup newsz / PGSIZE → newsz ≤ (v + left) * PGSIZE →
      ∃ r vm' d', allocuvmFrom o oldsz newsz left vm d (v * PGSIZE) = .ok (r, vm', d') ∧ Building P P vm₀ vm' d' ∧
        (r = newsz ∧ Image o d' (pgroundup newsz / PGSIZE) ∨ r = 0 ∧ ∃ v, o.page v = []) := by
  have hend : ∀ {v}, v ≤ pgroundup newsz / PGSIZE → newsz ≤ v * PGSIZE → v = pgroundup newsz / PGSIZE := fun {v} hle hge => by
    simp only [pgroundup, KERNBASE, PGSIZE] at *
    omega
  induction left with
  | zero =>
    intro vm d v hb him hle hleft
    exact ⟨newsz, vm, d, rfl, hb, .inl ⟨rfl, hend hle hleft ▸ him⟩⟩
  | succ left ih =>
    intro vm d v hb him hle hleft
    have hdiv : v * PGSIZE / PGSIZE = v := Nat.mul_div_cancel v (by decide)
    rw [allocuvmFrom, hdiv]
    split
    · rename_i hlt
      have hv : v < KERNPAGE := mul_pgsize_lt hlt (Nat.le_of_lt hsz)
      have hpool : ∀ {free : List Nat}, (∀ p ∈ free, P p) → Building P P vm₀ { vm with free := free } d := fun hfree =>
        ⟨⟨hb.mem, hfree, hb.kend, hb.data⟩, hb.built⟩
      cases hpage : o.page v with
      | nil =>
        have hb₁ : Building P P vm₀ { vm with free := [] } d := hpool fun _ hp => absurd hp List.not_mem_nil
        obtain ⟨r, vm', d', hr, hpool', hbuilt'⟩ := deallocuvm_ends hP hkend hb₁ (Nat.le_of_lt hsz) oldsz
        refine ⟨0, vm', d', ?_, ⟨hpool', hbuilt'⟩, .inr ⟨rfl, v, hpage⟩⟩
        simp only [kalloc, hr]
        rfl
      | cons p free =>
        have hp : P p := (hfinds v).1 p (hpage ▸ List.mem_cons_self)
        have hb₁ : Building P P vm₀ { vm with mem := Function.update vm.mem p .zero, free := o.table v } d :=
          ⟨(hpool (hfinds v).2).toPooled.set hp .zero, hb.built⟩
        have hfound : ∀ u ≤ v, o.page u ≠ [] := fun u hu hnil => by
          rcases Nat.lt_or_eq_of_le hu with hlt | rfl
          · obtain ⟨_, -, -, hgiven⟩ := him.mapped u hlt
            rw [hnil] at hgiven
            cases hgiven
          · rw [hpage] at hnil
            cases hnil
        obtain ⟨vm₁, d₁, hmap, him₁⟩ := him.round hv
          { vm with mem := Function.update vm.mem p .zero, free := o.table v } (by rw [hpage, List.head?_cons])
          fun hmod => htab hsz v hlt hmod hfound
        have hb₂ : Building P P vm₀ vm₁ d₁ := (Building.mappages (fun h => h) 1 hb₁ fun j hj _ => by
          obtain rfl : j = 0 := by omega
          exact hp).of_eq_ok hmap
        have hle₁ : v + 1 ≤ pgroundup newsz / PGSIZE := lt_pgroundup_div (Nat.le_of_lt hsz) hlt
        obtain ⟨r, vm', d', hr, hrest⟩ := ih hb₂ him₁ hle₁ (by rwa [Nat.add_right_comm])
        refine ⟨r, vm', d', ?_, hrest⟩
        simp only [kalloc, hmap, ok_bind, ← Nat.succ_mul]
        exact hr
    · rename_i hge
      exact ⟨newsz, vm, d, rfl, hb, .inl ⟨rfl, hend hle (Nat.le_of_not_lt hge) ▸ him⟩⟩

theorem allocuvm_image (hP : ∀ p, P p → Valid vm₀ p) (hkend : 0 < vm₀.kend) (hfinds : Finds o P) {oldsz : Nat}
    (hb : Building P P vm₀ vm d) (him : Image o d (pgroundup oldsz / PGSIZE)) (htab : TablesMet o newsz) :
    ∃ r vm' d', allocuvm o vm d oldsz newsz = .ok (r, vm', d') ∧ Building P P vm₀ vm' d' ∧
      (newsz < KERNBASE ∧ r = max oldsz newsz ∧ Image o d' (pgroundup r / PGSIZE) ∨
        r = 0 ∧ (newsz < KERNBASE → ∃ v, o.page v = [])) := by
  rw [allocuvm]
  split
  · rename_i hbase
    exact ⟨0, vm, d, rfl, hb, .inr ⟨rfl, fun h => absurd h (Nat.not_lt.mpr hbase)⟩⟩
  rename_i hbase
  split
  · rename_i hlt
    exact ⟨oldsz, vm, d, rfl, hb, .inl ⟨by omega, (Nat.max_eq_left (Nat.le_of_lt hlt)).symm, him⟩⟩
  · rename_i hle
    have hround := pgroundup_mono (Nat.le_of_not_lt hle) (Nat.le_of_not_le hbase)
    have hleft : newsz ≤ (pgroundup oldsz / PGSIZE + (newsz / PGSIZE + 1)) * PGSIZE := by
      generalize pgroundup oldsz / PGSIZE = v
      simp only [PGSIZE]
      omega
    obtain ⟨r, vm', d', hr, hb', hres⟩ := allocuvmFrom_image hP hkend hfinds htab (Nat.lt_of_not_le hbase) oldsz
      (newsz / PGSIZE + 1) hb him hround hleft
    rw [pgroundup_div_mul] at hr
    refine ⟨r, vm', d', hr, hb', ?_⟩
    rcases hres with ⟨rfl, him'⟩ | ⟨hzero, hnone⟩
    · exact .inl ⟨Nat.lt_of_not_le hbase, (Nat.max_eq_right (Nat.le_of_not_lt hle)).symm, him'⟩
    · exact .inr ⟨hzero, fun _ => hnone⟩

end Grows

/-! ### Loading the program -/

/-- The page is the user's in the new address space, and `kalloc` gave it for its place there. -/
def Own (o : Others) (e : Dest) : Prop :=
  ∃ v x, v < KERNPAGE ∧ e.pgdir.pte v = some x ∧ x.user = true ∧ x.page = e.page ∧ (o.page v).head? = some e.page

/-- The file is loaded as `Kernel.Program` says, with the page tables found that are asked for. -/
abbrev Program (Q : List UInt8 → Prop) (o : Others) (b : Build) (k : Kernel) (path : List UInt8) : Prop :=
  Kernel.Program Q (TablesMet o) (fun _ _ sz => TablesMet o ((pgroundup sz + 2 * PGSIZE) % 2 ^ 32)) (allocuvm o) b k path

section Load
variable {P : Nat → Prop} {vm₀ : Vm} {bad : Option String → Prop} {n : Nat}

theorem loaduvmFrom_spec (devsw : DevSw) (ip : InodeIdx) {addr sz : Nat} (offset : Nat) (hP : ∀ p, P p → Valid vm₀ p) (hd : d.Built P) (him : Image o d n)
    (hn : n ≤ KERNPAGE) (hfit : ∀ i < sz, addr + i < n * PGSIZE) : ∀ (left : Nat) {vm : Vm} (fs : Fs) (i : Nat), Pooled P P vm₀ vm →
    (loaduvmFrom devsw d ip addr offset sz left vm fs i).Spec (Own o)
      (fun r => Pooled P P vm₀ r.2.1) Fs.Panics
  | 0, vm, fs, i, h => .pure h
  | left + 1, vm, fs, i, h => by
    rw [loaduvmFrom]
    split
    · rename_i hi
      have hpage : (addr + i) % 2 ^ 32 / PGSIZE < n := by
        have := hfit i hi
        simp only [KERNPAGE, KERNBASE, PGSIZE] at *
        omega
      obtain ⟨x, hx, huser, hgiven⟩ := him.mapped _ hpage
      have hxP : P x.page := (hd.user _ x hx huser).1
      rw [walkpgdir_of_table (him.table_ne hpage), hx]
      dsimp only [Option.map_some, Option.getD_some]
      refine Traced.Spec.bind (.tell ⟨_, x, by omega, hx, huser, rfl, hgiven⟩) fun _ _ => ?_
      refine Traced.Spec.bind (.lift (Fs.readi_cache devsw fs ip _ _)) fun r _ => ?_
      obtain ⟨vm₁, hwrite⟩ := write_ok vm (hP _ hxP).2 0 r.2.1
      have h₁ : Pooled P P vm₀ vm₁ := (h.write hxP 0 r.2.1).of_eq_ok hwrite
      rw [hwrite, Traced.lift_bind]
      split
      · exact .pure h₁
      · exact loaduvmFrom_spec devsw ip offset hP hd him hn hfit left r.2.2 _ h₁
    · exact .pure h

theorem load_spec {Q : List UInt8 → Prop} (hP : ∀ p, P p → Valid vm₀ p) (hkend : 0 < vm₀.kend) (hfinds : Finds o P)
    (hfs : ∀ o, Fs.Panics o → bad o)
    (hQ : ∀ ph, Q ph → (phVaddr ph % PGSIZE ≠ 0 → bad (some "loaduvm: addr must be page aligned")) ∧
      (phVaddr ph % PGSIZE = 0 → Straight ph)) :
    ∀ (left : Nat) {k : Kernel} {d : Pgdir} {sz : Nat} {off : UInt32} (ph : List UInt8),
      Segments Q (TablesMet o) (fun _ _ sz => TablesMet o ((pgroundup sz + 2 * PGSIZE) % 2 ^ 32)) (allocuvm o) b ip left k d sz off ph → Building P P vm₀ k.vm d → Image o d (pgroundup sz / PGSIZE) → sz < KERNBASE →
      (load (allocuvm o) b ip left k d sz off ph).Spec (Own o) (fun r => Building P P vm₀ r.2.1.vm r.2.2 ∧
        ∀ sz', r.1 = some sz' → Image o r.2.2 (pgroundup sz' / PGSIZE) ∧ sz' < KERNBASE ∧
          TablesMet o ((pgroundup sz' + 2 * PGSIZE) % 2 ^ 32)) bad
  | 0, k, d, sz, off, ph, hseg, hb, him, hsz => .pure ⟨hb, fun sz' heq => Option.some.inj heq ▸ ⟨him, hsz, hseg⟩⟩
  | left + 1, k, d, sz, off, ph, hseg, hb, him, hsz => by
    rw [load]
    have hread := (Outcome.Spec.mono (Fs.readi_cache b.devsw k.fs ip off (.ofNat PROGHDR)) (fun _ h => h) hfs).self
    refine Traced.Spec.bind (.lift hread) ?_
    rintro ⟨r, bs, fs₁⟩ ⟨_, hres⟩
    dsimp only
    split
    · exact .pure ⟨hb, fun _ heq => by cases heq⟩
    rename_i hr
    have hseg := hseg bs fs₁ (by rw [hres, not_not.mp hr])
    dsimp only at hseg
    split
    · rename_i htype
      rw [if_pos htype] at hseg
      exact load_spec hP hkend hfinds hfs hQ left _ hseg hb him hsz
    rename_i htype
    rw [if_neg htype] at hseg
    split
    · exact .pure ⟨hb, fun _ heq => by cases heq⟩
    rename_i hmemsz
    obtain ⟨htab, hseg⟩ := hseg (Nat.le_of_not_lt hmemsz)
    generalize hnew : (phVaddr (fill ph bs) + phMemsz (fill ph bs)) % 2 ^ 32 = newsz at htab hseg ⊢
    obtain ⟨sz₁, vm₁, d₁, halloc, hb₁, him₁⟩ := allocuvm_image hP hkend hfinds hb him htab
    rw [halloc, Traced.lift_bind]
    dsimp only
    split
    · exact .pure ⟨hb₁, fun _ heq => by cases heq⟩
    rename_i hne
    obtain ⟨hbase, hmax, him₁⟩ := him₁.resolve_right fun h => hne h.1
    obtain ⟨hph, hseg⟩ := hseg sz₁ vm₁ d₁ halloc hne
    obtain ⟨haligned, hwraps⟩ := hQ (fill ph bs) hph
    rw [loaduvm]
    split
    · rename_i hoff
      exact ⟨fun _ he => absurd he List.not_mem_nil, haligned hoff⟩
    rename_i hoff
    have hn : pgroundup sz₁ / PGSIZE ≤ KERNPAGE := by
      simp only [pgroundup, KERNPAGE, KERNBASE, PGSIZE] at *
      omega
    have hfit : ∀ i < phFilesz (fill ph bs), phVaddr (fill ph bs) + i < pgroundup sz₁ / PGSIZE * PGSIZE := fun i hi => by
      have hno := (hwraps (not_not.mp hoff)).resolve_left (by omega)
      rw [Nat.mod_eq_of_lt hno] at hnew
      have hle := pgroundup_le (a := sz₁) (by omega)
      rw [pgroundup_div_mul]
      omega
    have hload := (loaduvmFrom_spec b.devsw ip (phOff (fill ph bs)) hP hb₁.built him₁ hn hfit
      (phFilesz (fill ph bs) / PGSIZE + 1) fs₁ 0 hb₁.toPooled).self
    refine Traced.Spec.bind (hload.mono (fun _ h => h) hfs) ?_
    rintro ⟨ok, vm₂, fs₂⟩ ⟨hpool, hout⟩
    have hb₂ : Building P P vm₀ vm₂ d₁ := ⟨hpool, hb₁.built⟩
    cases ok with
    | false => exact .pure ⟨hb₂, fun _ heq => by cases heq⟩
    | true =>
      dsimp only
      rw [if_neg (by decide)]
      refine load_spec hP hkend hfinds hfs hQ left _ (hseg vm₂ fs₂ ?_) hb₂ him₁ (by omega)
      rw [← loaduvm_out, loaduvm, if_neg hoff, hout]

end Load

end Loader
end Xv6
