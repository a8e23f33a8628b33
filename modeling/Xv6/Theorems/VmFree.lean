import Xv6.Lib.Slots
import Xv6.Theorems.VmRoom

/-! Which pages `deallocuvm` gives back. It looks at the pages of a range one after another, and where a page table is
    missing it goes on from the same place of the next one, so that pages before that place can be left out. -/

namespace Xv6
open Function (comp_apply comp_update update)
open Slots

namespace Pgdir

/-- The physical pages that are mapped below the kernel. -/
def frames (d : Pgdir) : Multiset Nat := held (Finset.range KERNPAGE) (Option.map Pte.page ∘ d.pte)

def tables (d : Pgdir) : Multiset Nat := held (Finset.range NPTENTRIES) d.table

/-- All pages that an address space takes. -/
def pages (d : Pgdir) : Multiset Nat := d.dir ::ₘ (d.tables + d.frames)

theorem mem_frames {d : Pgdir} {p : Nat} : p ∈ d.frames ↔ ∃ v e, v < KERNPAGE ∧ d.pte v = some e ∧ e.page = p := by
  rw [frames, mem_held]
  constructor
  · rintro ⟨v, hv, he⟩
    obtain ⟨e, he, hp⟩ := Option.map_eq_some_iff.mp he
    exact ⟨v, e, Finset.mem_range.mp hv, he, hp⟩
  · rintro ⟨v, e, hv, he, hp⟩
    exact ⟨v, Finset.mem_range.mpr hv, Option.map_eq_some_iff.mpr ⟨e, he, hp⟩⟩

theorem frames_clear {d : Pgdir} {v : Nat} {e : Pte} (hv : v < KERNPAGE) (he : d.pte v = some e) :
    d.frames = e.page ::ₘ (Vm.setPte d v none).frames := by
  have h : (Option.map Pte.page ∘ d.pte) v = some e.page := by rw [comp_apply, he, Option.map_some]
  rw [frames, held_clear (Finset.mem_range.mpr hv) h, frames, Vm.setPte, comp_update, Option.map_none]

theorem frames_fill {d : Pgdir} {v : Nat} (e : Pte) (hv : v < KERNPAGE) (he : d.pte v = none) :
    (Vm.setPte d v (some e)).frames = e.page ::ₘ d.frames := by
  have h : (Option.map Pte.page ∘ d.pte) v = none := by rw [comp_apply, he, Option.map_none]
  rw [frames, frames, Vm.setPte, comp_update, Option.map_some, held_fill (Finset.mem_range.mpr hv) h]

theorem frames_congr {d d' : Pgdir} (h : ∀ v, v < KERNPAGE → d'.pte v = d.pte v) : d'.frames = d.frames :=
  held_congr fun v hv => congrArg (Option.map Pte.page) (h v (Finset.mem_range.mp hv))

/-- Page `u` is left out by a scan from page `v` on: the tables from that of `v` on are missing up to that of `u`, and
    `u` lies nearer to the start of its table than `v` does. -/
def Skipped (d : Pgdir) (v u : Nat) : Prop :=
  v / NPTENTRIES < u / NPTENTRIES ∧ (∀ i, v / NPTENTRIES ≤ i → i < u / NPTENTRIES → d.table i = none) ∧
    u % NPTENTRIES < v % NPTENTRIES

/-- Every entry is in a page table, and those below the kernel map pages of the allocator. -/
structure Backed (vm : Vm) (d : Pgdir) : Prop where
  sparse : ∀ v, d.table (v / NPTENTRIES) = none → d.pte v = none
  valid : ∀ p ∈ d.frames, Vm.Valid vm p

/-- The pages below the kernel are mapped to different pages. -/
structure Sound (vm : Vm) (d : Pgdir) : Prop extends d.Backed vm where
  nodup : d.frames.Nodup

theorem Skipped.table_ne {d : Pgdir} {v u : Nat} (h : d.table (v / NPTENTRIES) ≠ none) : ¬d.Skipped v u :=
  fun hs => h (hs.2.1 _ (le_refl _) hs.1)

theorem Skipped.aligned {d : Pgdir} {v u : Nat} (h : v % NPTENTRIES = 0) : ¬d.Skipped v u := fun hs => by
  have := hs.2.2
  omega

theorem Skipped.succ {d : Pgdir} {v u : Nat} (h : d.table (v / NPTENTRIES) ≠ none) : ¬d.Skipped (v + 1) u := by
  by_cases hv : (v + 1) / NPTENTRIES = v / NPTENTRIES
  · exact Skipped.table_ne (hv ▸ h)
  · refine Skipped.aligned ?_
    simp only [NPTENTRIES] at *
    omega

theorem Skipped.jump {d : Pgdir} {v u : Nat} (hv : d.table (v / NPTENTRIES) = none) (hu : d.table (u / NPTENTRIES) ≠ none) :
    v + NPTENTRIES ≤ u ∧ ¬d.Skipped (v + NPTENTRIES) u ↔ v ≤ u ∧ ¬d.Skipped v u := by
  have hne : v / NPTENTRIES ≠ u / NPTENTRIES := fun h => hu (h ▸ hv)
  have hdiv : (v + NPTENTRIES) / NPTENTRIES = v / NPTENTRIES + 1 := Nat.add_div_right v (by decide)
  have hmod : (v + NPTENTRIES) % NPTENTRIES = v % NPTENTRIES := Nat.add_mod_right v _
  constructor
  · rintro ⟨hle, hns⟩
    refine ⟨by omega, fun hs => hns ?_⟩
    rw [Skipped, hdiv, hmod]
    refine ⟨?_, fun i hi => hs.2.1 i (by omega), hs.2.2⟩
    have := hs.1
    have := hs.2.2
    simp only [NPTENTRIES] at *
    omega
  · rintro ⟨hle, hns⟩
    constructor
    · by_contra hlt
      refine hns ⟨?_, fun i hi hlt' => ?_, ?_⟩
      · have := Nat.div_le_div_right (c := NPTENTRIES) hle
        omega
      · have : i = v / NPTENTRIES := by
          simp only [NPTENTRIES] at *
          omega
        exact this ▸ hv
      · simp only [NPTENTRIES] at *
        omega
    · rintro ⟨hlt, htable, hoff⟩
      rw [hdiv] at hlt htable
      rw [hmod] at hoff
      refine hns ⟨by omega, fun i hi hi' => ?_, hoff⟩
      by_cases h : i = v / NPTENTRIES
      · exact h ▸ hv
      · exact htable i (by omega) hi'

end Pgdir

namespace Vm
variable {vm vm' : Vm} {d d' : Pgdir} {oldsz newsz v : Nat}

/-- Page `u` is one of those from `v` on that begin below `oldsz`. -/
abbrev Within (v oldsz u : Nat) : Prop := v ≤ u ∧ u * PGSIZE < oldsz

/-- The pages from `v` on that begin below `oldsz` were given back, except those that a scan leaves out. -/
structure Freed (v oldsz : Nat) (vm : Vm) (d : Pgdir) (vm' : Vm) (d' : Pgdir) : Prop where
  dir : d'.dir = d.dir
  table : d'.table = d.table
  gone : ∀ u, Within v oldsz u → ¬d.Skipped v u → d'.pte u = none
  kept : ∀ u, ¬(Within v oldsz u ∧ ¬d.Skipped v u) → d'.pte u = d.pte u
  pages : (vm'.free : Multiset Nat) + d'.frames = vm.free + d.frames
  mem : ∀ p, p ∉ vm'.free → vm'.mem p = vm.mem p
  free : ∀ p ∈ vm.free, p ∈ vm'.free
  kend : vm'.kend = vm.kend
  data : vm'.data = vm.data

theorem Freed.refl (h : oldsz ≤ v * PGSIZE) : Freed v oldsz vm d vm d where
  dir := rfl
  table := rfl
  gone u hu := by
    have := Nat.mul_le_mul_right PGSIZE hu.1
    omega
  kept _ _ := rfl
  pages := rfl
  mem _ _ := rfl
  free _ := id
  kend := rfl
  data := rfl

theorem Freed.of_same {w : Nat} (h : Freed w oldsz vm d vm' d')
    (hsame : ∀ u, d.pte u ≠ none → (Within w oldsz u ∧ ¬d.Skipped w u ↔ Within v oldsz u ∧ ¬d.Skipped v u)) :
    Freed v oldsz vm d vm' d' where
  dir := h.dir
  table := h.table
  gone u hu hs := by
    by_cases hn : d.pte u = none
    · by_cases hw : Within w oldsz u ∧ ¬d.Skipped w u
      · exact h.gone u hw.1 hw.2
      · rw [h.kept u hw, hn]
    · have hw := (hsame u hn).mpr ⟨hu, hs⟩
      exact h.gone u hw.1 hw.2
  kept u hu := by
    by_cases hn : d.pte u = none
    · by_cases hw : Within w oldsz u ∧ ¬d.Skipped w u
      · rw [h.gone u hw.1 hw.2, hn]
      · exact h.kept u hw
    · exact h.kept u fun hw => hu ((hsame u hn).mp hw)
  pages := h.pages
  mem := h.mem
  free := h.free
  kend := h.kend
  data := h.data

theorem Within.succ_iff {u : Nat} (h : u ≠ v) : Within (v + 1) oldsz u ↔ Within v oldsz u := by
  constructor
  · exact fun hu => ⟨by omega, hu.2⟩
  · rintro ⟨hle, hlt⟩
    exact ⟨by omega, hlt⟩

theorem Freed.clear {e : Pte} {vm₁ : Vm} (hv : v < KERNPAGE) (hlt : v * PGSIZE < oldsz)
    (ht : d.table (v / NPTENTRIES) ≠ none) (he : d.pte v = some e) (hk : vm.kfree e.page = .ok vm₁)
    (h : Freed (v + 1) oldsz vm₁ (setPte d v none) vm' d') : Freed v oldsz vm d vm' d' := by
  obtain rfl : vm₁ = { vm with mem := update vm.mem e.page fun _ => 1, free := e.page :: vm.free } := by
    unfold kfree at hk
    split at hk
    · cases hk
    · exact (Outcome.ok.inj hk).symm
  refine ⟨h.dir, h.table, fun u hu _ => ?_, fun u hu => ?_, ?_, fun p hp => ?_, fun p hp => ?_, h.kend, h.data⟩
  · by_cases huv : u = v
    · subst huv
      rw [h.kept u fun hw => by have := hw.1.1; omega, pte_setPte_self]
    · exact h.gone u ((Within.succ_iff huv).mpr hu) (Pgdir.Skipped.succ ht)
  · have huv : u ≠ v := by
      rintro rfl
      exact hu ⟨⟨le_refl u, hlt⟩, Pgdir.Skipped.table_ne ht⟩
    rw [h.kept u fun hw => hu ⟨(Within.succ_iff huv).mp hw.1, Pgdir.Skipped.table_ne ht⟩, pte_setPte_of_ne d huv]
  · have hp := h.pages
    rw [Pgdir.frames_clear hv he, hp, ← Multiset.cons_coe, Multiset.cons_add, Multiset.add_cons]
  · have hne : p ≠ e.page := fun heq => hp (h.free p (heq ▸ List.mem_cons_self))
    rw [h.mem p hp]
    exact Function.update_of_ne hne _ _
  · exact h.free p (List.mem_cons_of_mem _ hp)

theorem Backed.clear {e : Pte} (hd : d.Backed vm) (hv : v < KERNPAGE) (he : d.pte v = some e) (hk : vm'.kend = vm.kend) :
    (setPte d v none).Backed vm' := by
  refine ⟨fun u hu => ?_, fun p hp => ?_⟩
  · by_cases huv : u = v
    · subst huv
      exact pte_setPte_self ..
    · rw [pte_setPte_of_ne d huv]
      exact hd.sparse u hu
  · have := hd.valid p (Pgdir.frames_clear hv he ▸ Multiset.mem_cons_of_mem hp)
    rwa [Valid, hk]

theorem mul_pgsize_lt {u : Nat} (h : u * PGSIZE < oldsz) (hsz : oldsz ≤ KERNBASE) : u < KERNPAGE := by
  simp only [KERNPAGE, KERNBASE, PGSIZE] at *
  omega

theorem deallocuvmFrom_freed (hsz : oldsz ≤ KERNBASE) (left : Nat) : ∀ {vm : Vm} {d : Pgdir} {v : Nat}, 0 < vm.kend →
    d.Backed vm → oldsz ≤ (v + left) * PGSIZE →
      ∃ vm' d', deallocuvmFrom oldsz left vm d (v * PGSIZE) = .ok (vm', d') ∧ Freed v oldsz vm d vm' d' := by
  induction left with
  | zero => exact fun {vm d v} _ _ hleft => ⟨vm, d, rfl, .refl hleft⟩
  | succ left ih =>
    intro vm d v hkend hd hleft
    rw [deallocuvmFrom]
    split
    case isFalse h => exact ⟨vm, d, rfl, .refl (Nat.le_of_not_lt h)⟩
    case isTrue hlt =>
      have hdiv : v * PGSIZE / PGSIZE = v := Nat.mul_div_cancel v (by decide)
      have hnext : v * PGSIZE + PGSIZE = (v + 1) * PGSIZE := (Nat.succ_mul v PGSIZE).symm
      have hv : v < KERNPAGE := mul_pgsize_lt hlt hsz
      rw [hdiv]
      by_cases ht : d.table (v / NPTENTRIES) = none
      · -- no table: on to the same place of the next one
        have hn : 1 ≤ NPTENTRIES := by decide
        have hjump : v * PGSIZE + (NPTENTRIES - 1) * PGSIZE + PGSIZE = (v + NPTENTRIES) * PGSIZE := by
          rw [Nat.add_assoc, ← Nat.succ_mul, ← Nat.add_mul, Nat.succ_eq_add_one, Nat.sub_add_cancel hn]
        have hw : vm.walkpgdir d v false = none := by simp only [walkpgdir, ht, if_true]
        obtain ⟨vm', d', hr, hf⟩ := ih (v := v + NPTENTRIES) hkend hd
          (Nat.le_trans hleft (Nat.mul_le_mul_right PGSIZE (by omega)))
        rw [hw, hjump]
        refine ⟨vm', d', hr, hf.of_same fun u hu => ?_⟩
        have hj := Pgdir.Skipped.jump ht fun h => hu (hd.sparse u h)
        constructor
        · rintro ⟨hin, hs⟩
          have := hj.mp ⟨hin.1, hs⟩
          exact ⟨⟨this.1, hin.2⟩, this.2⟩
        · rintro ⟨hin, hs⟩
          have := hj.mpr ⟨hin.1, hs⟩
          exact ⟨⟨this.1, hin.2⟩, this.2⟩
      · rw [walkpgdir_of_table ht]
        have hleft' : oldsz ≤ (v + 1 + left) * PGSIZE := by rwa [Nat.add_assoc, Nat.add_comm 1]
        cases he : d.pte v with
        | none =>
          obtain ⟨vm', d', hr, hf⟩ := ih (v := v + 1) hkend hd hleft'
          rw [hnext]
          refine ⟨vm', d', hr, hf.of_same fun u hu => ?_⟩
          have huv : u ≠ v := fun h => hu (h ▸ he)
          rw [Within.succ_iff huv]
          exact and_congr_right fun _ => iff_of_true (Pgdir.Skipped.succ ht) (Pgdir.Skipped.table_ne ht)
        | some e =>
          have hvalid := hd.valid e.page (Pgdir.mem_frames.mpr ⟨v, e, hv, he, rfl⟩)
          obtain ⟨vm₁, hk, hkend₁⟩ := kfree_ok hvalid
          obtain ⟨vm', d', hr, hf⟩ := ih (v := v + 1) (hkend₁ ▸ hkend) (Backed.clear hd hv he hkend₁) hleft'
          have hpage : e.page ≠ 0 := by
            have := hvalid.1
            omega
          refine ⟨vm', d', ?_, hf.clear hv hlt ht he hk⟩
          rw [hnext]
          simp only [if_neg hpage, hk]
          exact hr

theorem deallocuvmFrom_add (left : Nat) : ∀ {vm : Vm} {d : Pgdir} {v : Nat} (more : Nat), oldsz ≤ (v + left) * PGSIZE →
    deallocuvmFrom oldsz (left + more) vm d (v * PGSIZE) = deallocuvmFrom oldsz left vm d (v * PGSIZE) := by
  induction left with
  | zero =>
    intro vm d v more h
    cases more with
    | zero => rfl
    | succ more =>
      rw [Nat.add_zero] at h
      simp only [deallocuvmFrom, if_neg (Nat.not_lt.mpr h)]
  | succ left ih =>
    intro vm d v more h
    have hn : 1 ≤ NPTENTRIES := by decide
    have hnext : v * PGSIZE + PGSIZE = (v + 1) * PGSIZE := (Nat.succ_mul v PGSIZE).symm
    have hjump : v * PGSIZE + (NPTENTRIES - 1) * PGSIZE + PGSIZE = (v + NPTENTRIES) * PGSIZE := by
      rw [Nat.add_assoc, ← Nat.succ_mul, ← Nat.add_mul, Nat.succ_eq_add_one, Nat.sub_add_cancel hn]
    have hleft : ∀ m, 1 ≤ m → oldsz ≤ (v + m + left) * PGSIZE := fun m hm =>
      Nat.le_trans h (Nat.mul_le_mul_right PGSIZE (by omega))
    rw [Nat.add_right_comm, deallocuvmFrom, deallocuvmFrom]
    simp only [hnext, hjump, ih more (hleft 1 (le_refl 1)), ih more (hleft NPTENTRIES hn)]

theorem pgroundup_div_mul (a : Nat) : pgroundup a / PGSIZE * PGSIZE = pgroundup a := by
  rw [pgroundup, Nat.mul_div_cancel _ (by decide)]

theorem deallocuvm_freed (hkend : 0 < vm.kend) (hd : d.Backed vm) (hlt : newsz < oldsz) (hsz : oldsz ≤ KERNBASE) :
    ∃ vm' d', vm.deallocuvm d oldsz newsz = .ok (newsz, vm', d') ∧
      (∀ left, oldsz / PGSIZE < left → deallocuvmFrom oldsz left vm d (pgroundup newsz) = .ok (vm', d')) ∧
      Freed (pgroundup newsz / PGSIZE) oldsz vm d vm' d' := by
  have hleft : oldsz ≤ (pgroundup newsz / PGSIZE + (oldsz / PGSIZE + 1)) * PGSIZE := by
    generalize pgroundup newsz / PGSIZE = v
    simp only [PGSIZE]
    omega
  obtain ⟨vm', d', hr, hf⟩ := deallocuvmFrom_freed hsz (oldsz / PGSIZE + 1) hkend hd hleft
  refine ⟨vm', d', ?_, fun left h => ?_, hf⟩
  · rw [pgroundup_div_mul] at hr
    rw [deallocuvm, if_neg (Nat.not_le.mpr hlt), hr]
    rfl
  · obtain ⟨more, rfl⟩ := Nat.exists_eq_add_of_le h
    rw [← hr, ← deallocuvmFrom_add _ more hleft, pgroundup_div_mul]

/-- `deallocuvm` ends; it gives back what is mapped from `PGROUNDUP(newsz)` to `oldsz`, each page once, and leaves all
    other entries alone. -/
def FreesRange (vm : Vm) (d : Pgdir) (oldsz newsz : Nat) : Prop :=
  ∃ vm' d', vm.deallocuvm d oldsz newsz = .ok (newsz, vm', d') ∧
    (∀ left, oldsz / PGSIZE < left → deallocuvmFrom oldsz left vm d (pgroundup newsz) = .ok (vm', d')) ∧
    (∀ u, Within (pgroundup newsz / PGSIZE) oldsz u → d'.pte u = none) ∧
    (vm'.free : Multiset Nat) =
      vm.free + held ((Finset.range KERNPAGE).filter (Within (pgroundup newsz / PGSIZE) oldsz)) (Option.map Pte.page ∘ d.pte) ∧
    (∀ u, ¬Within (pgroundup newsz / PGSIZE) oldsz u → d'.pte u = d.pte u) ∧ d'.table = d.table ∧ d'.dir = d.dir

theorem Freed.free_eq (h : Freed v oldsz vm d vm' d') (hs : ∀ u, Within v oldsz u → d.pte u ≠ none → ¬d.Skipped v u) :
    (∀ u, Within v oldsz u → d'.pte u = none) ∧ (∀ u, ¬Within v oldsz u → d'.pte u = d.pte u) ∧
      (vm'.free : Multiset Nat) = vm.free + held ((Finset.range KERNPAGE).filter (Within v oldsz)) (Option.map Pte.page ∘ d.pte) := by
  have hgone : ∀ u, Within v oldsz u → d'.pte u = none := fun u hu => by
    by_cases hn : d.pte u = none
    · by_cases hw : Within v oldsz u ∧ ¬d.Skipped v u
      · exact h.gone u hw.1 hw.2
      · rw [h.kept u hw, hn]
    · exact h.gone u hu (hs u hu hn)
  have hkept : ∀ u, ¬Within v oldsz u → d'.pte u = d.pte u := fun u hu => h.kept u fun hw => hu hw.1
  have hpages := h.pages
  have hd : d.frames = held ((Finset.range KERNPAGE).filter (Within v oldsz)) (Option.map Pte.page ∘ d.pte) + d'.frames := by
    have hin : held ((Finset.range KERNPAGE).filter (Within v oldsz)) (Option.map Pte.page ∘ d'.pte) = 0 :=
      held_eq_zero fun u hu => by rw [comp_apply, hgone u (Finset.mem_filter.mp hu).2, Option.map_none]
    rw [Pgdir.frames, Pgdir.frames, held_split (Within v oldsz), held_split (f := Option.map Pte.page ∘ d'.pte) (Within v oldsz),
      hin, zero_add]
    refine congrArg _ (held_congr fun u hu => ?_)
    rw [comp_apply, comp_apply, hkept u (Finset.mem_filter.mp hu).2]
  rw [hd, ← add_assoc] at hpages
  exact ⟨hgone, hkept, add_right_cancel hpages⟩

/-- `deallocuvm` gives back exactly the range that it is asked for, unless a missing page table makes it leave out a page
    that is mapped. -/
theorem deallocuvm_frees_range_iff (hkend : 0 < vm.kend) (hd : d.Sound vm) (hlt : newsz < oldsz) (hsz : oldsz ≤ KERNBASE) :
    FreesRange vm d oldsz newsz ↔
      ∀ u, Within (pgroundup newsz / PGSIZE) oldsz u → d.pte u ≠ none → ¬d.Skipped (pgroundup newsz / PGSIZE) u := by
  obtain ⟨vm', d', hr, hall, hf⟩ := deallocuvm_freed hkend hd.toBacked hlt hsz
  constructor
  · rintro ⟨vm₁, d₁, hr₁, -, hgone, -⟩ u hu hn hs
    rw [hr] at hr₁
    cases hr₁
    exact hn (by rw [← hf.kept u fun hw => hw.2 hs, hgone u hu])
  · intro hs
    obtain ⟨hgone, hkept, hfree⟩ := hf.free_eq hs
    exact ⟨vm', d', hr, hall, hgone, hfree, hkept, hf.table, hf.dir⟩

def noMemory : Vm := { mem := fun _ => .zero, free := [], data := 264, kend := 300 }

/-- The first page of the second page table is mapped, and nothing else. -/
def lonePage : Pgdir :=
  setPte { dir := 2000, table := fun i => if i = 1 then some 2001 else none, pte := fun _ => none } NPTENTRIES
    (some ⟨2002, true, true⟩)

theorem lonePage_sound : lonePage.Sound noMemory := by
  have hframes : lonePage.frames = {2002} := by
    rw [lonePage, Pgdir.frames_fill _ (by decide) rfl]
    exact congrArg _ (held_eq_zero fun _ _ => rfl)
  refine ⟨⟨fun v hv => ?_, fun p hp => ?_⟩, ?_⟩
  · refine pte_setPte_of_ne _ ?_ _
    rintro rfl
    cases hv
  · rw [hframes, Multiset.mem_singleton] at hp
    subst hp
    exact ⟨by decide, by decide⟩
  · rw [hframes]
    exact Multiset.nodup_singleton 2002

theorem deallocuvm_frees_lonePage : FreesRange noMemory lonePage ((NPTENTRIES + 1) * PGSIZE) 0 :=
  (deallocuvm_frees_range_iff (by decide) lonePage_sound (by decide) (by decide)).mpr fun _ _ _ => Pgdir.Skipped.aligned rfl

/-- From the second page on there is no page table up to the page, and it is missed. -/
theorem deallocuvm_misses_lonePage : lonePage.Sound noMemory ∧ ¬FreesRange noMemory lonePage ((NPTENTRIES + 1) * PGSIZE) PGSIZE := by
  refine ⟨lonePage_sound, ?_⟩
  rintro ⟨vm', d', hr, -, hgone, -⟩
  have hsame : noMemory.deallocuvm lonePage ((NPTENTRIES + 1) * PGSIZE) PGSIZE = .ok (PGSIZE, noMemory, lonePage) := rfl
  rw [hsame] at hr
  cases hr
  have := hgone NPTENTRIES (by decide)
  cases this

/-! ### Taking an address space down -/

theorem kfree_free {p : Nat} (h : vm.kfree p = .ok vm') : vm'.free = p :: vm.free ∧ vm'.kend = vm.kend := by
  unfold kfree at h
  split at h
  · cases h
  · cases h
    exact ⟨rfl, rfl⟩

theorem freeTables_free (d : Pgdir) : ∀ (is : List Nat) (vm : Vm), (∀ i ∈ is, ∀ t, d.table i = some t → Valid vm t) →
    ∃ vm', freeTables d is vm = .ok vm' ∧ (vm'.free : Multiset Nat) = vm.free + (is.filterMap d.table : Multiset Nat) ∧
      vm'.kend = vm.kend
  | [], vm, _ => ⟨vm, rfl, by simp, rfl⟩
  | i :: is, vm, hv => by
    rw [freeTables]
    cases ht : d.table i with
    | none =>
      obtain ⟨vm', hr, hfree, hkend⟩ := freeTables_free d is vm fun j hj => hv j (List.mem_cons_of_mem i hj)
      exact ⟨vm', hr, by rw [hfree, List.filterMap_cons_none ht], hkend⟩
    | some t =>
      obtain ⟨vm₁, hk, hkend₁⟩ := kfree_ok (hv i List.mem_cons_self t ht)
      obtain ⟨vm', hr, hfree, hkend⟩ := freeTables_free d is vm₁ fun j hj u hu => by
        have := hv j (List.mem_cons_of_mem i hj) u hu
        rwa [Valid, hkend₁]
      refine ⟨vm', ?_, ?_, hkend.trans hkend₁⟩
      · dsimp only
        rw [hk]
        exact hr
      · rw [hfree, (kfree_free hk).1, List.filterMap_cons_some ht, ← Multiset.cons_coe, ← Multiset.cons_coe, Multiset.cons_add,
          Multiset.add_cons]

/-- `freevm` gives back every page of the address space once. -/
theorem freevm_free (hkend : 0 < vm.kend) (hd : d.Backed vm) (hv : ∀ p ∈ d.pages, Valid vm p) :
    ∃ vm', vm.freevm d = .ok vm' ∧ (vm'.free : Multiset Nat) = vm.free + d.pages := by
  have hbase : 0 < KERNBASE := by decide
  obtain ⟨vm₁, d₁, hr₁, -, hf⟩ := deallocuvm_freed hkend hd hbase (le_refl KERNBASE)
  have hnone : d₁.frames = 0 := held_eq_zero fun u hu => by
    have hu : u < KERNPAGE := Finset.mem_range.mp hu
    have hlt : u * PGSIZE < KERNBASE := by
      simp only [KERNPAGE, KERNBASE, PGSIZE] at *
      omega
    rw [comp_apply, hf.gone u ⟨Nat.zero_le u, hlt⟩ (Pgdir.Skipped.aligned rfl), Option.map_none]
  have hfree₁ : (vm₁.free : Multiset Nat) = vm.free + d.frames := by
    have := hf.pages
    rwa [hnone, add_zero] at this
  obtain ⟨vm₂, hr₂, hfree₂, hkend₂⟩ := freeTables_free d₁ (List.range NPTENTRIES) vm₁ fun i hi t ht => by
    have hmem : t ∈ d.tables := mem_held.mpr ⟨i, Finset.mem_range.mpr (List.mem_range.mp hi), hf.table ▸ ht⟩
    have := hv t (Multiset.mem_cons_of_mem (Multiset.mem_add.mpr (.inl hmem)))
    rwa [Valid, hf.kend]
  have hdir : Valid vm₂ d₁.dir := by
    have := hv d.dir (Multiset.mem_cons_self _ _)
    rwa [Valid, hkend₂, hf.kend, hf.dir]
  obtain ⟨vm₃, hr₃, -⟩ := kfree_ok hdir
  have htables : (((List.range NPTENTRIES).filterMap d₁.table : List Nat) : Multiset Nat) = d.tables := by rw [hf.table]; rfl
  refine ⟨vm₃, ?_, ?_⟩
  · rw [freevm, hr₁]
    dsimp only [bind, Outcome.bind]
    rw [hr₂]
    exact hr₃
  · rw [(kfree_free hr₃).1, ← Multiset.cons_coe, hfree₂, htables, hfree₁, hf.dir, Pgdir.pages, Multiset.add_cons, add_assoc,
      add_comm d.frames]

end Vm
end Xv6
