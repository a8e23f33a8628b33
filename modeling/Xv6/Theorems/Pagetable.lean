import Mathlib.Data.Nat.Bitwise
import Xv6.Pagetable

/-! Page directories are maps: `mappages` adds a range of pages and leaves the others. -/

namespace Xv6
namespace Tables
variable {s s' : Tables} {pgdir perm v pa t e : Nat}

/-- The page tables of a directory are distinct pages, none of them the directory's, and none of all these is free. -/
structure Wf (s : Tables) (pgdir : Nat) : Prop where
  nodup : s.free.Nodup
  dir : pgdir ∉ s.free
  table : ∀ i < 1024, ∀ t, s.table pgdir i = some t → t ≠ pgdir ∧ t ∉ s.free
  inj : ∀ i < 1024, ∀ j < 1024, ∀ t, s.table pgdir i = some t → s.table pgdir j = some t → i = j

/-- The first free pages, `made`, have become page tables for some of the `j` pages from `v` on. -/
structure Makes (pgdir v j : Nat) (s : Tables) (made : List Nat) (s' : Tables) : Prop where
  free : s.free = made ++ s'.free
  used : ∀ t ∈ made, ∃ k < j, s.table pgdir ((v + k) / 1024) = none ∧ s'.table pgdir ((v + k) / 1024) = some t
  old : ∀ i t, s.table pgdir i = some t → s'.table pgdir i = some t
  new : ∀ i t, s'.table pgdir i = some t → s.table pgdir i = some t ∨ t ∈ made

theorem Makes.refl (s : Tables) (pgdir v j : Nat) : Makes pgdir v j s [] s := ⟨rfl, by simp, fun _ _ h => h, fun _ _ h => .inl h⟩

theorem Makes.cons {j : Nat} {s₁ : Tables} {made made' : List Nat} (h : Makes pgdir v 1 s made s₁) (h' : Makes pgdir (v + 1) j s₁ made' s') :
    Makes pgdir v (j + 1) s (made ++ made') s' := by
  refine ⟨by rw [h.free, h'.free, List.append_assoc], fun t ht => ?_, fun i t hi => h'.old i t (h.old i t hi), fun i t hi => ?_⟩
  · rcases List.mem_append.mp ht with ht | ht
    · obtain ⟨k, hk, hnone, hsome⟩ := h.used t ht
      exact ⟨k, by omega, hnone, h'.old _ t hsome⟩
    · obtain ⟨k, hk, hnone, hsome⟩ := h'.used t ht
      rw [Nat.add_assoc, Nat.add_comm 1] at hnone hsome
      refine ⟨k + 1, by omega, Option.eq_none_iff_forall_ne_some.mpr fun t' ht' => ?_, hsome⟩
      rw [h.old _ t' ht'] at hnone
      cases hnone
  · rcases h'.new i t hi with hi | ht
    · exact (h.new i t hi).imp_right (List.mem_append_left _)
    · exact .inr (List.mem_append_right _ ht)

theorem set_pte (s : Tables) (p i e q j : Nat) : (s.set p i e).pte q j = if q = p ∧ j = i then e else s.pte q j := by
  by_cases hq : q = p
  · subst hq
    by_cases hj : j = i <;> simp [set, hj]
  · simp [set, hq]

theorem translate_eq (s : Tables) (pgdir v : Nat) : s.translate pgdir v = (s.table pgdir (v / 1024)).bind fun t =>
    if s.pte t (v % 1024) % 2 = 1 then some (s.pte t (v % 1024)) else none := rfl

theorem Wf.set (h : s.Wf pgdir) (hv : v < 2 ^ 20) (ht : s.table pgdir (v / 1024) = some t) (he : e % 2 = 1) :
    (s.set t (v % 1024) e).Wf pgdir ∧ (∀ i, (s.set t (v % 1024) e).table pgdir i = s.table pgdir i) ∧
      ∀ u < 2 ^ 20, (s.set t (v % 1024) e).translate pgdir u = if u = v then some e else s.translate pgdir u := by
  have hne := (h.table _ (by omega) t ht).1
  have htable : ∀ i, (s.set t (v % 1024) e).table pgdir i = s.table pgdir i := by
    intro i
    simp [Tables.table, set_pte, hne.symm]
  refine ⟨⟨h.nodup, h.dir, fun i hi t' ht' => h.table i hi t' (htable i ▸ ht'), fun i hi j hj t' hi' hj' =>
    h.inj i hi j hj t' (htable i ▸ hi') (htable j ▸ hj')⟩, htable, fun u hu => ?_⟩
  rw [translate_eq, translate_eq, htable]
  by_cases huv : u = v
  · simp [huv, ht, set_pte, he]
  · rw [if_neg huv]
    refine Option.bind_congr fun t' ht' => ?_
    have hdiff : ¬(t' = t ∧ u % 1024 = v % 1024) := by
      rintro ⟨rfl, hmod⟩
      have := h.inj _ (by omega) _ (by omega) t' ht' ht
      omega
    rw [set_pte, if_neg hdiff]

theorem Wf.walkpgdir (h : s.Wf pgdir) (hv : v < 2 ^ 20) :
    (s.walkpgdir pgdir (v * PGSIZE) true = none ∧ s.free = [] ∧ s.table pgdir (v / 1024) = none) ∨
    ∃ t s', s.walkpgdir pgdir (v * PGSIZE) true = some (t, s') ∧ s'.Wf pgdir ∧ s'.table pgdir (v / 1024) = some t ∧
      (∃ made, Makes pgdir v 1 s made s') ∧ ∀ u < 2 ^ 20, s'.translate pgdir u = s.translate pgdir u := by
  have hpdx : pdx (v * PGSIZE) = v / 1024 := by
    simp only [pdx, PGSIZE, NPTENTRIES]
    omega
  simp only [Tables.walkpgdir, hpdx]
  split
  · next hpde =>
    refine .inr ⟨_, s, rfl, h, ?_, ⟨[], .refl s pgdir v 1⟩, fun _ _ => rfl⟩
    rw [Tables.table, if_pos hpde, pteAddr, Nat.mul_div_cancel _ (by decide)]
  · next hpde =>
    rw [if_neg (by decide)]
    obtain ⟨pte, free⟩ := s
    cases free with
    | nil => exact .inl ⟨rfl, rfl, if_neg hpde⟩
    | cons t free =>
      obtain ⟨htfree, hnodup⟩ := List.nodup_cons.mp h.nodup
      obtain ⟨htdir, hdir⟩ := not_or.mp (List.mem_cons.not.mp h.dir)
      have hor : t * PGSIZE ||| 7 = t * PGSIZE + 7 := by
        have hadd := Nat.two_pow_add_eq_or_of_lt (show 7 < 2 ^ 12 by decide) t
        rw [Nat.mul_comm] at hadd
        exact hadd.symm
      refine .inr ⟨t, _, rfl, ?_⟩
      rw [hor]
      generalize hs' : Tables.set ⟨Function.update pte t fun _ => 0, free⟩ pgdir (v / 1024) (t * PGSIZE + 7) = s'
      have hfree : s'.free = free := hs' ▸ rfl
      have hpte : ∀ q j, s'.pte q j = if q = pgdir ∧ j = v / 1024 then t * PGSIZE + 7 else if q = t then 0 else pte q j := by
        intro q j
        rw [← hs', set_pte]
        by_cases hq : q = t <;> simp [hq]
      have htable : ∀ i, s'.table pgdir i = if i = v / 1024 then some t else Tables.table ⟨pte, t :: free⟩ pgdir i := by
        intro i
        by_cases hi : i = v / 1024
        · have hnew : s'.pte pgdir i = t * PGSIZE + 7 := by simp [hpte, hi]
          simp only [Tables.table, hnew, if_pos hi, PGSIZE]
          rw [if_pos (by omega), show (t * 4096 + 7) / 4096 = t by omega]
        · simp [Tables.table, hpte, hi, htdir]
      have hfresh : ∀ i < 1024, Tables.table ⟨pte, t :: free⟩ pgdir i ≠ some t := fun i hi he =>
        (h.table i hi t he).2 List.mem_cons_self
      have hnone : Tables.table ⟨pte, t :: free⟩ pgdir (v / 1024) = none := if_neg hpde
      refine ⟨⟨hfree ▸ hnodup, hfree ▸ hdir, fun i hi t' ht' => ?_, fun i hi j hj t' hi' hj' => ?_⟩, by simp [htable],
        ⟨[t], by rw [hfree]; rfl, fun t' ht' => ⟨0, Nat.one_pos, hnone, ?_⟩, fun i t' hi => ?_, fun i t' hi => ?_⟩,
        fun u hu => ?_⟩
      · rw [htable] at ht'
        split at ht'
        · cases ht'
          exact ⟨Ne.symm htdir, hfree ▸ htfree⟩
        · obtain ⟨hd, hnf⟩ := h.table i hi t' ht'
          exact ⟨hd, fun hp => hnf (List.mem_cons_of_mem _ (hfree ▸ hp))⟩
      · rw [htable] at hi' hj'
        split at hi' <;> split at hj'
        · omega
        · cases hi'
          exact absurd hj' (hfresh j hj)
        · cases hj'
          exact absurd hi' (hfresh i hi)
        · exact h.inj i hi j hj t' hi' hj'
      · rw [List.mem_singleton.mp ht', htable, Nat.add_zero, if_pos rfl]
      · rw [htable, if_neg, hi]
        rintro rfl
        rw [hnone] at hi
        cases hi
      · rw [htable] at hi
        split at hi
        · cases hi
          exact .inr List.mem_cons_self
        · exact .inl hi
      · rw [translate_eq, translate_eq, htable]
        by_cases hi : u / 1024 = v / 1024
        · simp [hi, hnone, hpte, Ne.symm htdir]
        · rw [if_neg hi]
          refine Option.bind_congr fun t' ht' => ?_
          have hlt : u / 1024 < 1024 := by omega
          have hd := (h.table _ hlt t' ht').1
          have hne : t' ≠ t := by
            rintro rfl
            exact hfresh _ hlt ht'
          simp [hpte, hd, hne]

theorem Wf.round (h : s.Wf pgdir) (hv : v < 2 ^ 20) (hnone : s.translate pgdir v = none) :
    (s.free = [] ∧ s.table pgdir (v / 1024) = none ∧
      ∀ last rounds, mappagesFrom pgdir last perm (rounds + 1) s (v * PGSIZE) pa = some (.ok (false, s))) ∨
      ∃ s', s'.Wf pgdir ∧ (∃ made, Makes pgdir v 1 s made s') ∧
        (∀ u < 2 ^ 20, s'.translate pgdir u = if u = v then some (pa ||| perm ||| 1) else s.translate pgdir u) ∧
        ∀ last rounds, mappagesFrom pgdir last perm (rounds + 1) s (v * PGSIZE) pa = if v * PGSIZE = last then some (.ok (true, s'))
          else mappagesFrom pgdir last perm rounds s' ((v * PGSIZE + PGSIZE) % 2 ^ 32) ((pa + PGSIZE) % 2 ^ 32) := by
  obtain ⟨hwalk, hfree, habsent⟩ | ⟨t, s₁, hwalk, hwf, htable, ⟨made, hmade⟩, hsame⟩ := h.walkpgdir hv
  · exact .inl ⟨hfree, habsent, fun last rounds => by rw [mappagesFrom, hwalk]⟩
  · have hptx : ptx (v * PGSIZE) = v % 1024 := by rw [ptx, Nat.mul_div_cancel _ (by decide)]
    have habsent : ¬s₁.pte t (v % 1024) % 2 = 1 := by
      intro hp
      have hfound := hsame v hv
      rw [hnone, translate_eq, htable, Option.bind_some, if_pos hp] at hfound
      cases hfound
    have hodd : (pa ||| perm ||| 1) % 2 = 1 := by
      rw [Nat.or_mod_two_eq_one]
      exact .inr rfl
    obtain ⟨hwf', htables, htrans⟩ := hwf.set hv htable hodd
    have hmade' : Makes pgdir v 1 s made (s₁.set t (v % 1024) (pa ||| perm ||| 1)) := by
      refine ⟨hmade.free, fun t' ht' => ?_, fun i t' hi => (htables i).trans (hmade.old i t' hi), fun i t' hi =>
        hmade.new i t' (htables i ▸ hi)⟩
      obtain ⟨k, hk, hold, hnew⟩ := hmade.used t' ht'
      exact ⟨k, hk, hold, (htables _).trans hnew⟩
    refine .inr ⟨_, hwf', ⟨made, hmade'⟩, fun u hu => by rw [htrans u hu, hsame u hu], fun last rounds => ?_⟩
    rw [mappagesFrom, hwalk]
    simp only [hptx, if_neg habsent]

/-- The loop of `mappages` over `n + 1` pages: `j` of them get mapped, and fewer than all only when the next one has no page table
    and no page is free. -/
theorem Wf.mappagesFrom : ∀ (n : Nat) {s : Tables} {v pa : Nat}, s.Wf pgdir → v + n < 2 ^ 20 → pa < 2 ^ 32 →
    (∀ u, v ≤ u → u ≤ v + n → s.translate pgdir u = none) →
    ∃ j ≤ n + 1, ∃ s', (∀ rounds, n + 1 ≤ rounds → mappagesFrom pgdir ((v + n) * PGSIZE) perm rounds s (v * PGSIZE) pa =
        some (.ok (decide (j = n + 1), s'))) ∧ s'.Wf pgdir ∧ (∃ made, Makes pgdir v j s made s') ∧
      (j < n + 1 → s'.free = [] ∧ s'.table pgdir ((v + j) / 1024) = none) ∧
      ∀ u < 2 ^ 20, s'.translate pgdir u =
        if v ≤ u ∧ u < v + j then some ((pa + (u - v) * PGSIZE) % 2 ^ 32 ||| perm ||| 1) else s.translate pgdir u := by
  intro n s v pa h hv hpa hnone
  obtain ⟨hfree, htable, hstop⟩ | ⟨s₁, hwf, ⟨made, hmade⟩, htrans, hround⟩ := h.round (by omega) (hnone v le_rfl (by omega))
  · refine ⟨0, by omega, s, fun rounds hr => ?_, h, ⟨[], .refl s pgdir v 0⟩, fun _ => ⟨hfree, htable⟩, fun u _ => by simp⟩
    obtain ⟨r, rfl⟩ := Nat.exists_eq_add_of_le' (show 1 ≤ rounds by omega)
    simpa using hstop _ r
  have hfirst : (pa + (v - v) * PGSIZE) % 2 ^ 32 = pa := by
    rw [Nat.sub_self, Nat.zero_mul, Nat.add_zero, Nat.mod_eq_of_lt hpa]
  cases n with
  | zero =>
    refine ⟨1, le_rfl, s₁, fun rounds hr => ?_, hwf, ⟨made, hmade⟩, fun hlt => absurd hlt (by omega), fun u hu => ?_⟩
    · obtain ⟨r, rfl⟩ := Nat.exists_eq_add_of_le' hr
      simpa using hround (v * PGSIZE) r
    · rw [htrans u hu]
      by_cases huv : u = v
      · subst huv
        rw [if_pos rfl, if_pos (by omega), hfirst]
      · rw [if_neg huv, if_neg (by omega)]
  | succ n =>
    have habsent : ∀ u, v + 1 ≤ u → u ≤ v + 1 + n → s₁.translate pgdir u = none := fun u hu hu' => by
      rw [htrans u (by omega), if_neg (by omega)]
      exact hnone u (by omega) (by omega)
    obtain ⟨j, hj, s', hrun, hwf', ⟨made', hmade'⟩, hfree, htrans'⟩ := Wf.mappagesFrom n hwf (by omega) (Nat.mod_lt (pa + PGSIZE) (by decide)) habsent
    refine ⟨j + 1, by omega, s', fun rounds hr => ?_, hwf', ⟨made ++ made', hmade.cons hmade'⟩, fun hlt => ?_, fun u hu => ?_⟩
    · obtain ⟨r, rfl⟩ := Nat.exists_eq_add_of_le' (show 1 ≤ rounds by omega)
      have hnext : (v * PGSIZE + PGSIZE) % 2 ^ 32 = (v + 1) * PGSIZE ∧ v * PGSIZE ≠ (v + (n + 1)) * PGSIZE := by
        simp only [PGSIZE]
        omega
      rw [hround, if_neg hnext.2, hnext.1, show v + (n + 1) = v + 1 + n by omega, hrun r (by omega)]
      simp
    · rw [show v + (j + 1) = v + 1 + j by omega]
      exact hfree (by omega)
    · rw [htrans' u hu, htrans u hu]
      by_cases huv : u = v
      · subst huv
        rw [if_neg (by omega), if_pos rfl, if_pos (by omega), hfirst]
      · by_cases hin : v + 1 ≤ u ∧ u < v + 1 + j
        · have haddr : ((pa + PGSIZE) % 2 ^ 32 + (u - (v + 1)) * PGSIZE) % 2 ^ 32 = (pa + (u - v) * PGSIZE) % 2 ^ 32 := by
            simp only [PGSIZE]
            omega
          rw [if_pos hin, if_pos (by omega), haddr]
        · rw [if_neg hin, if_neg huv, if_neg (by omega)]

theorem pte_parts (hpa : pa % PGSIZE = 0) (hperm : perm < PGSIZE) :
    pteAddr (pa ||| perm ||| 1) = pa ∧ pteFlags (pa ||| perm ||| 1) = perm ||| 1 := by
  have hflags : perm ||| 1 < 2 ^ 12 := Nat.or_lt_two_pow hperm (by decide)
  obtain ⟨q, rfl⟩ := Nat.dvd_of_mod_eq_zero hpa
  have hsum : PGSIZE * q ||| perm ||| 1 = PGSIZE * q + (perm ||| 1) := by
    rw [Nat.or_assoc]
    exact (Nat.two_pow_add_eq_or_of_lt hflags q).symm
  rw [hsum, pteAddr, pteFlags]
  simp only [PGSIZE] at *
  omega

/-- `mappages` maps the range page by page, `j` pages of it, and all the others of the address space translate as before. It returns 0
    when all are mapped. It returns -1 only when the next page has no page table and no page is free: `kalloc` failed, after the
    pages that were free had all become page tables of the range. -/
theorem mappages_maps {va size : Nat} (h : s.Wf pgdir) (hsize : 0 < size) (hwrap : va + size - 1 < 2 ^ 32)
    (hpage : pa % PGSIZE = 0) (hpa : pa < 2 ^ 32)
    (habsent : ∀ v, va / PGSIZE ≤ v → v ≤ (va + size - 1) / PGSIZE → s.translate pgdir v = none) :
    ∃ j ≤ (va + size - 1) / PGSIZE - va / PGSIZE + 1, ∃ s',
      (∀ rounds, (va + size - 1) / PGSIZE - va / PGSIZE + 1 ≤ rounds → mappages rounds s pgdir va size pa perm =
        some (.ok (decide (j = (va + size - 1) / PGSIZE - va / PGSIZE + 1), s'))) ∧
      s'.Wf pgdir ∧ (∃ made, Makes pgdir (va / PGSIZE) j s made s') ∧
      (j < (va + size - 1) / PGSIZE - va / PGSIZE + 1 → s'.free = [] ∧ s'.table pgdir ((va / PGSIZE + j) / 1024) = none) ∧
      (∀ k < j, ∃ e, s'.translate pgdir (va / PGSIZE + k) = some e ∧ e = (pa + k * PGSIZE) % 2 ^ 32 ||| perm ||| 1 ∧
        (perm < PGSIZE → pteAddr e = (pa + k * PGSIZE) % 2 ^ 32 ∧ pteFlags e = perm ||| 1)) ∧
      ∀ v < 2 ^ 20, ¬(va / PGSIZE ≤ v ∧ v < va / PGSIZE + j) → s'.translate pgdir v = s.translate pgdir v := by
  have hle : va / PGSIZE ≤ (va + size - 1) / PGSIZE := Nat.div_le_div_right (by omega)
  have hlast : (va + size - 1) / PGSIZE < 2 ^ 20 := by
    simp only [PGSIZE]
    omega
  have hend : va / PGSIZE + ((va + size - 1) / PGSIZE - va / PGSIZE) = (va + size - 1) / PGSIZE := by omega
  obtain ⟨j, hj, s', hrun, hwf, hmade, hfree, htrans⟩ := h.mappagesFrom ((va + size - 1) / PGSIZE - va / PGSIZE)
    (v := va / PGSIZE) (by omega) hpa fun u hu hu' => habsent u hu (by omega)
  refine ⟨j, hj, s', fun rounds hr => ?_, hwf, hmade, hfree, fun k hk => ⟨_, ?_, rfl, pte_parts ?_⟩, fun v hv hout => ?_⟩
  · rw [← hrun rounds hr, mappages, pgrounddown, pgrounddown, Nat.mod_eq_of_lt hwrap, hend]
  · rw [htrans _ (by omega), if_pos (by omega), Nat.add_sub_cancel_left]
  · simp only [PGSIZE] at *
    omega
  · rw [htrans v hv, if_neg hout]

/-- One page at the very top of the address space, with one page left for its table: it is mapped, and no page is free then. -/
theorem mappages_maps_top : ∃ s' : Tables, mappages 1 ⟨fun _ _ => 0, [5]⟩ 1 0xffffffff 1 0x6000 2 = some (.ok (true, s')) ∧ s'.Wf 1 ∧
    s'.free = [] ∧ s'.translate 1 0xfffff = some 0x6003 := by
  have hwf : Wf ⟨fun _ _ => 0, [5]⟩ 1 := ⟨by simp, by simp, by simp [Tables.table], by simp [Tables.table]⟩
  obtain ⟨j, hj, s', hrun, hwf', ⟨made, hmade⟩, hstop, hmapped, -⟩ :=
    @mappages_maps _ 1 2 0x6000 0xffffffff 1 hwf (by decide) (by decide) (by decide) (by decide)
      fun v _ _ => by simp [translate_eq, Tables.table]
  have hfree := hmade.free
  obtain rfl | rfl : j = 0 ∨ j = 1 := by
    simp only [PGSIZE] at hj
    omega
  · -- With no page mapped no table is made, and the page is still free.
    rw [(hstop (by decide)).1] at hfree
    cases made with
    | nil => cases hfree
    | cons t made =>
      obtain ⟨k, hk, -⟩ := hmade.used t List.mem_cons_self
      cases hk
  · obtain ⟨e, he, rfl, -⟩ := hmapped 0 Nat.one_pos
    obtain ⟨t, ht, -⟩ := Option.bind_eq_some_iff.mp he
    have hin : t ∈ made := (hmade.new _ t ht).resolve_left (by simp [Tables.table])
    refine ⟨s', hrun 1 (by decide), hwf', ?_, he⟩
    cases made with
    | nil => cases hin
    | cons t made => exact (List.append_eq_nil_iff.mp (List.cons.inj hfree).2.symm).2

end Tables
end Xv6
