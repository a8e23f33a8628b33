import Xv6.Theorems.Grow

/-! `copyout` stores its bytes in pages that the user has, up to the first page that they do not have. It goes wrong only
    where there is no page table: `uva2ka` takes what is at address 0 for an entry then. -/

namespace Xv6
open Bytes Slots

/-- An address space in order: the user has only pages below the kernel, and those are different pages of the
    allocator. -/
structure Pgdir.Proper (vm : Vm) (d : Pgdir) : Prop extends d.Sound vm where
  kernel : ∀ v e, d.pte v = some e → e.user = true → v < KERNPAGE

theorem Pgdir.Proper.congr {vm vm' : Vm} {d : Pgdir} (hd : d.Proper vm) (hkend : vm'.kend = vm.kend) : d.Proper vm' where
  sparse := hd.sparse
  valid p hp := by
    rw [Vm.Valid, hkend]
    exact hd.valid p hp
  nodup := hd.nodup
  kernel := hd.kernel

namespace Vm
variable {vm vm' vm₁ : Vm} {cur d : Pgdir} {u v p q va n m : Nat} {bs : List UInt8}

theorem Maps.lt_kernpage (hd : d.Proper vm) (h : Maps d v p) : v < KERNPAGE := by
  obtain ⟨-, e, he, huser, -⟩ := h
  exact hd.kernel v e he huser

theorem Maps.valid (hd : d.Proper vm) (h : Maps d v p) : Valid vm p := by
  have hlt := h.lt_kernpage hd
  obtain ⟨-, e, he, -, hp⟩ := h
  exact hd.valid p (Pgdir.mem_frames.mpr ⟨v, e, hlt, he, hp⟩)

theorem Maps.inj (hd : d.Proper vm) (h : Maps d u p) (h' : Maps d v p) : u = v := by
  have hu := h.lt_kernpage hd
  have hv := h'.lt_kernpage hd
  obtain ⟨-, e, he, -, hp⟩ := h
  obtain ⟨-, e', he', -, hp'⟩ := h'
  refine eq_of_nodup (b := p) hd.nodup (Finset.mem_range.mpr hu) (Finset.mem_range.mpr hv) ?_ ?_
  · rw [Function.comp_apply, he, Option.map_some, hp]
  · rw [Function.comp_apply, he', Option.map_some, hp']

/-! ### Stores through user addresses -/

/-- The user has the first `m` bytes of `bs` from address `va` on; no other byte of memory has changed. -/
structure Copied (d : Pgdir) (va : Nat) (bs : List UInt8) (m : Nat) (vm vm' : Vm) : Prop where
  rest : vm' = { vm with mem := vm'.mem }
  there : ∀ j < m, ∃ p, Maps d ((va + j) / PGSIZE) p ∧ (vm'.mem p).byte ((va + j) % PGSIZE) = bs.getD j 0
  others : ∀ p o, (∀ j < m, Maps d ((va + j) / PGSIZE) p → o ≠ (va + j) % PGSIZE) → (vm'.mem p).byte o = (vm.mem p).byte o

theorem Copied.refl (d : Pgdir) (va : Nat) (bs : List UInt8) (vm : Vm) : Copied d va bs 0 vm vm where
  rest := rfl
  there j hj := absurd hj (Nat.not_lt_zero j)
  others _ _ _ := rfl

theorem Copied.kend (h : Copied d va bs m vm vm') : vm'.kend = vm.kend := by rw [h.rest]

theorem Copied.trans (hd : d.Proper vm) (h : Copied d va bs n vm vm₁) (h' : Copied d (va + n) (bs.drop n) m vm₁ vm') :
    Copied d va bs (n + m) vm vm' where
  rest := by rw [h'.rest, h.rest]
  there j hj := by
    by_cases hjn : j < n
    · obtain ⟨p, hp, hbyte⟩ := h.there j hjn
      refine ⟨p, hp, ?_⟩
      -- The bytes that come later are for other addresses, so they do not hit this one.
      rw [h'.others p _ fun k hk hk' heq => ?_, hbyte]
      have hpage := hp.inj hd hk'
      have := Nat.div_add_mod (va + j) PGSIZE
      have := Nat.div_add_mod (va + n + k) PGSIZE
      rw [hpage, heq] at *
      omega
    · obtain ⟨k, rfl⟩ := Nat.exists_eq_add_of_le (Nat.not_lt.mp hjn)
      obtain ⟨p, hp, hbyte⟩ := h'.there k (by omega)
      rw [Nat.add_assoc] at hp hbyte
      refine ⟨p, hp, hbyte.trans ?_⟩
      rw [List.getD_eq_getElem?_getD, List.getElem?_drop, ← List.getD_eq_getElem?_getD]
  others p o ho := by
    rw [h'.others p o fun k hk hk' => ?_, h.others p o fun j hj => ho j (by omega)]
    rw [Nat.add_assoc] at hk' ⊢
    exact ho (n + k) (by omega) hk'

theorem Copied.of_write (h : Maps d (va / PGSIZE) p) (hfit : va % PGSIZE + n ≤ PGSIZE) (hn : n ≤ bs.length)
    (hw : vm.write p (va % PGSIZE) (bs.take n) = .ok vm') : Copied d va bs n vm vm' := by
  rw [Vm.write] at hw
  split at hw <;> cases hw
  have hlen : (bs.take n).length = n := List.length_take_of_le hn
  have hdiv : ∀ j < n, (va + j) / PGSIZE = va / PGSIZE ∧ (va + j) % PGSIZE = va % PGSIZE + j := by
    intro j hj
    simp only [PGSIZE] at hfit ⊢
    omega
  refine ⟨rfl, fun j hj => ⟨p, by rw [(hdiv j hj).1]; exact h, ?_⟩, fun q o ho => ?_⟩
  · dsimp only
    rw [(hdiv j hj).2, Function.update_self, Buffer.byte_setBytes, if_pos (by omega), Nat.add_sub_cancel_left,
      List.getD_eq_getElem?_getD, List.getElem?_take_of_lt hj, ← List.getD_eq_getElem?_getD]
  · by_cases hq : q = p
    · subst hq
      dsimp only
      rw [Function.update_self, Buffer.byte_setBytes, if_neg]
      rintro ⟨-, hlo, hhi⟩
      obtain ⟨j, rfl⟩ := Nat.exists_eq_add_of_le hlo
      have hj : j < n := by omega
      refine ho j hj ?_ (hdiv j hj).2.symm
      rw [(hdiv j hj).1]
      exact h
    · dsimp only
      rw [Function.update_of_ne hq]

/-! ### The loop -/

/-- The pages that `copyoutFrom` gives to `uva2ka`, which reads their entries. -/
def lookups (cur d : Pgdir) : Nat → Vm → Nat → List UInt8 → List Nat
  | 0, _, _, _ => []
  | left + 1, vm, va, bs =>
    if 0 < bs.length then
      let n := min (PGSIZE - va % PGSIZE) bs.length
      va / PGSIZE :: match vm.uva2ka cur d (va / PGSIZE) with
        | .ok (some p) =>
          match vm.write p (va % PGSIZE) (bs.take n) with
          | .ok vm => lookups cur d left vm ((va / PGSIZE * PGSIZE + PGSIZE) % 2 ^ 32) (bs.drop n)
          | _ => []
        | _ => []
    else []

def InRange (va n v : Nat) : Prop := ∃ j < n, (va + j) / PGSIZE = v

theorem inRange_iff : InRange va n v ↔ 0 < n ∧ va / PGSIZE ≤ v ∧ v * PGSIZE < va + n := by
  simp only [InRange, PGSIZE]
  constructor
  · rintro ⟨j, hj, rfl⟩
    omega
  · rintro ⟨hn, hlo, hhi⟩
    exact ⟨v * 4096 - va, by omega, by omega⟩

/-- Each page of the range has a page table, if the user has all pages of the range before it. -/
def TablesReached (d : Pgdir) (va n : Nat) : Prop :=
  ∀ v, InRange va n v → (∀ u, InRange va n u → u < v → ∃ p, Maps d u p) → d.table (v / NPTENTRIES) ≠ none

/-- How `copyout` ends, when it has copied `m` of the bytes: with all of them, or before a page that the user has not. -/
inductive Ends (d : Pgdir) (va len m : Nat) : Bool → Prop
  | all (h : m = len) : Ends d va len m true
  | stopped (h : m < len) (hpage : m = 0 ∨ (va + m) % PGSIZE = 0) (hnot : ∀ p, ¬Maps d ((va + m) / PGSIZE) p) :
      Ends d va len m false

theorem lookups_nil (left va : Nat) : lookups cur d left vm va [] = [] := by
  cases left <;> rfl

theorem inRange_self (hne : bs ≠ []) : InRange va bs.length (va / PGSIZE) := ⟨0, List.length_pos_iff.mpr hne, rfl⟩

theorem InRange.le (h : InRange va n v) : va / PGSIZE ≤ v := (inRange_iff.mp h).2.1

theorem inRange_next (hlt : PGSIZE - va % PGSIZE < n) (v : Nat) :
    InRange (va + (PGSIZE - va % PGSIZE)) (n - (PGSIZE - va % PGSIZE)) v ↔ InRange va n v ∧ v ≠ va / PGSIZE := by
  simp only [inRange_iff, PGSIZE] at *
  omega

theorem TablesReached.next (h : TablesReached d va n) (hlt : PGSIZE - va % PGSIZE < n) (hp : Maps d (va / PGSIZE) p) :
    TablesReached d (va + (PGSIZE - va % PGSIZE)) (n - (PGSIZE - va % PGSIZE)) := by
  intro v hv hbefore
  refine h v ((inRange_next hlt v).mp hv).1 fun u hu huv => ?_
  by_cases hfirst : u = va / PGSIZE
  · subst hfirst
    exact ⟨p, hp⟩
  · exact hbefore u ((inRange_next hlt u).mpr ⟨hu, hfirst⟩) huv

theorem Ends.next {ok : Bool} (hle : va % PGSIZE ≤ PGSIZE) (h : Ends d (va + (PGSIZE - va % PGSIZE)) (n - (PGSIZE - va % PGSIZE)) m ok)
    (hlt : PGSIZE - va % PGSIZE < n) : Ends d va n (PGSIZE - va % PGSIZE + m) ok := by
  cases h with
  | all h => exact .all (by omega)
  | stopped h hpage hnot =>
    rw [Nat.add_assoc] at hpage hnot
    refine .stopped (by omega) (.inr ?_) hnot
    rcases hpage with rfl | hpage
    · simp only [PGSIZE] at *
      omega
    · exact hpage

theorem copyoutFrom_round (cur : Pgdir) (left : Nat) (hd : d.Proper vm) (hp : Maps d (va / PGSIZE) p) (hne : bs ≠ []) :
    ∃ vm₁, Copied d va bs (min (PGSIZE - va % PGSIZE) bs.length) vm vm₁ ∧
      copyoutFrom cur d (left + 1) vm va bs =
        copyoutFrom cur d left vm₁ ((va / PGSIZE * PGSIZE + PGSIZE) % 2 ^ 32) (bs.drop (min (PGSIZE - va % PGSIZE) bs.length)) ∧
      lookups cur d (left + 1) vm va bs = va / PGSIZE ::
        lookups cur d left vm₁ ((va / PGSIZE * PGSIZE + PGSIZE) % 2 ^ 32) (bs.drop (min (PGSIZE - va % PGSIZE) bs.length)) := by
  have hpos := List.length_pos_iff.mpr hne
  have hmod : va % PGSIZE < PGSIZE := Nat.mod_lt va (by decide)
  obtain ⟨vm₁, hw⟩ := write_ok vm (hp.valid hd).2 (va % PGSIZE) (bs.take (min (PGSIZE - va % PGSIZE) bs.length))
  refine ⟨vm₁, .of_write hp (by omega) (Nat.min_le_right _ _) hw, ?_, ?_⟩
  · rw [copyoutFrom, if_pos hpos, uva2ka_of_maps hp]
    dsimp only [Outcome.ok_bind]
    rw [hw]
    rfl
  · rw [lookups, if_pos hpos, uva2ka_of_maps hp]
    dsimp only
    rw [hw]

theorem copyoutFrom_copied : ∀ (left : Nat) {vm : Vm} (va : Nat) (bs : List UInt8), d.Proper vm → bs.length ≤ left → va < 2 ^ 32 →
    va + bs.length ≤ 2 ^ 32 → TablesReached d va bs.length →
    ∃ ok vm' m, copyoutFrom cur d left vm va bs = .ok (ok, vm') ∧ Copied d va bs m vm vm' ∧ Ends d va bs.length m ok ∧
      ∀ v ∈ lookups cur d left vm va bs, d.table (v / NPTENTRIES) ≠ none
  | 0, vm, va, bs, _, hleft, _, _, _ => by
    obtain rfl := List.length_eq_zero_iff.mp (Nat.le_zero.mp hleft)
    exact ⟨true, vm, 0, rfl, .refl d va [] vm, .all rfl, fun v hv => nomatch hv⟩
  | left + 1, vm, va, bs, hd, hleft, hva, hlen, htab => by
    by_cases hne : bs = []
    · subst hne
      exact ⟨true, vm, 0, copyoutFrom_nil _ _, .refl d va [] vm, .all rfl, fun v hv => nomatch hv⟩
    · have htable : d.table (va / PGSIZE / NPTENTRIES) ≠ none :=
        htab _ (inRange_self hne) fun u hu hlt => absurd hu.le (Nat.not_le.mpr hlt)
      by_cases hmap : ∃ p, Maps d (va / PGSIZE) p
      · obtain ⟨p, hp⟩ := hmap
        obtain ⟨vm₁, hcopied, hrun, hlook⟩ := copyoutFrom_round cur left hd hp hne
        rw [hrun, hlook]
        simp only [List.forall_mem_cons]
        by_cases hall : bs.length ≤ PGSIZE - va % PGSIZE
        · rw [Nat.min_eq_right hall] at hcopied ⊢
          rw [List.drop_length, lookups_nil]
          exact ⟨true, vm₁, _, copyoutFrom_nil _ _, hcopied, .all rfl, htable, fun v hv => nomatch hv⟩
        · have hlt := Nat.not_le.mp hall
          have hmod : va % PGSIZE < PGSIZE := Nat.mod_lt va (by decide)
          have hnext : (va / PGSIZE * PGSIZE + PGSIZE) % 2 ^ 32 = va + (PGSIZE - va % PGSIZE) := by
            simp only [PGSIZE] at *
            omega
          rw [Nat.min_eq_left hlt.le] at hcopied ⊢
          rw [hnext]
          have hdrop : (bs.drop (PGSIZE - va % PGSIZE)).length = bs.length - (PGSIZE - va % PGSIZE) := List.length_drop
          obtain ⟨ok, vm', m, hrun', hcopied', hends, htables⟩ := copyoutFrom_copied left
            (va + (PGSIZE - va % PGSIZE)) (bs.drop (PGSIZE - va % PGSIZE)) (hd.congr hcopied.kend) (by omega) (by omega) (by omega)
            (by rw [hdrop]; exact htab.next hlt hp)
          rw [hdrop] at hends
          exact ⟨ok, vm', _, hrun', hcopied.trans hd hcopied', hends.next hmod.le hlt, htable, htables⟩
      · have hguard : Guarded d (va / PGSIZE) := by
          refine ⟨htable, fun e he => ?_⟩
          rw [← Bool.not_eq_true]
          exact fun huser => hmap ⟨e.page, htable, e, he, huser, rfl⟩
        have hpos := List.length_pos_iff.mpr hne
        refine ⟨false, vm, 0, ?_, .refl d va bs vm, .stopped hpos (.inl rfl) fun p hp => hmap ⟨p, hp⟩, ?_⟩
        · rw [copyoutFrom, if_pos hpos, uva2ka_of_guarded hguard]
          rfl
        · rw [lookups, if_pos hpos, uva2ka_of_guarded hguard]
          simp only [List.forall_mem_cons]
          exact ⟨htable, fun v hv => nomatch hv⟩

theorem mem_lookups : ∀ (left : Nat) {vm : Vm} (va : Nat) (bs : List UInt8), d.Proper vm → bs.length ≤ left → va < 2 ^ 32 →
    va + bs.length ≤ 2 ^ 32 → InRange va bs.length v → (∀ u, InRange va bs.length u → u < v → ∃ p, Maps d u p) →
    v ∈ lookups cur d left vm va bs
  | 0, vm, va, bs, _, hleft, _, _, hv, _ => by
    have := (inRange_iff.mp hv).1
    omega
  | left + 1, vm, va, bs, hd, hleft, hva, hlen, hv, hbefore => by
    have hne : bs ≠ [] := by
      rintro rfl
      exact absurd (inRange_iff.mp hv).1 (Nat.lt_irrefl 0)
    by_cases hfirst : v = va / PGSIZE
    · subst hfirst
      rw [lookups, if_pos (List.length_pos_iff.mpr hne)]
      exact List.mem_cons_self
    · obtain ⟨p, hp⟩ := hbefore _ (inRange_self hne) (lt_of_le_of_ne hv.le (Ne.symm hfirst))
      obtain ⟨vm₁, hcopied, -, hlook⟩ := copyoutFrom_round cur left hd hp hne
      have hlt : PGSIZE - va % PGSIZE < bs.length := by
        have hin := inRange_iff.mp hv
        simp only [PGSIZE] at hin hfirst ⊢
        omega
      have hnext : (va / PGSIZE * PGSIZE + PGSIZE) % 2 ^ 32 = va + (PGSIZE - va % PGSIZE) := by
        simp only [PGSIZE] at *
        omega
      have hdrop : (bs.drop (PGSIZE - va % PGSIZE)).length = bs.length - (PGSIZE - va % PGSIZE) := List.length_drop
      have hmod : va % PGSIZE < PGSIZE := Nat.mod_lt va (by decide)
      rw [hlook, Nat.min_eq_left hlt.le, hnext]
      refine List.mem_cons_of_mem _ (mem_lookups left _ _ (hd.congr hcopied.kend) (by omega) (by omega) (by omega) ?_ ?_)
      · rw [hdrop]
        exact (inRange_next hlt v).mpr ⟨hv, hfirst⟩
      · rw [hdrop]
        exact fun u hu huv => hbefore u ((inRange_next hlt u).mp hu).1 huv

/-! ### `copyout` -/

/-- `copyout` reads no entry where there is no page table. It copies all bytes, or those before the first page of the range
    that the user has not; nothing else changes. -/
def CopiesExactly (vm : Vm) (cur d : Pgdir) (va : Nat) (bs : List UInt8) : Prop :=
  (∀ v ∈ lookups cur d bs.length vm va bs, d.table (v / NPTENTRIES) ≠ none) ∧
  ∃ ok vm', vm.copyout cur d va bs = .ok (ok, vm') ∧
    if ok then (∀ v, InRange va bs.length v → ∃ p, Maps d v p) ∧ Copied d va bs bs.length vm vm'
    else ∃ v, InRange va bs.length v ∧ (∀ p, ¬Maps d v p) ∧ (∀ u, InRange va bs.length u → u < v → ∃ p, Maps d u p) ∧
      Copied d va bs (v * PGSIZE - va) vm vm'

theorem Copied.stopped (h : Copied d va bs m vm vm') (hlt : m < bs.length) (hpage : m = 0 ∨ (va + m) % PGSIZE = 0)
    (hnot : ∀ p, ¬Maps d ((va + m) / PGSIZE) p) : ∃ v, InRange va bs.length v ∧ (∀ p, ¬Maps d v p) ∧
      (∀ u, InRange va bs.length u → u < v → ∃ p, Maps d u p) ∧ Copied d va bs (v * PGSIZE - va) vm vm' := by
  refine ⟨(va + m) / PGSIZE, ⟨m, hlt, rfl⟩, hnot, ?_, ?_⟩
  · rintro u ⟨j, -, rfl⟩ hu
    have hjm : j < m := by
      by_contra hle
      exact absurd hu (Nat.not_lt.mpr (Nat.div_le_div_right (by omega)))
    obtain ⟨p, hp, -⟩ := h.there j hjm
    exact ⟨p, hp⟩
  · have hm : (va + m) / PGSIZE * PGSIZE - va = m := by
      simp only [PGSIZE] at *
      omega
    rw [hm]
    exact h

/-- `copyout` is exact if and only if the first page of the range that the user has not, if there is one, has a page
    table. -/
theorem copyout_exact_iff (cur : Pgdir) (hd : d.Proper vm) (hva : va < 2 ^ 32) (hlen : va + bs.length ≤ 2 ^ 32) :
    CopiesExactly vm cur d va bs ↔ TablesReached d va bs.length := by
  constructor
  · intro h v hv hbefore
    exact h.1 v (mem_lookups _ va bs hd (Nat.le_refl _) hva hlen hv hbefore)
  · intro htab
    obtain ⟨ok, vm', m, hrun, hcopied, hends, htables⟩ := copyoutFrom_copied _ va bs hd (Nat.le_refl _) hva hlen htab
    refine ⟨htables, ok, vm', hrun, ?_⟩
    cases hends with
    | all hm =>
      subst hm
      refine ⟨?_, hcopied⟩
      rintro v ⟨j, hj, rfl⟩
      obtain ⟨p, hp, -⟩ := hcopied.there j hj
      exact ⟨p, hp⟩
    | stopped hlt hpage hnot => exact hcopied.stopped hlt hpage hnot

theorem proper_onePage : onePage.Proper noMemory := by
  refine ⟨holds_onePage.sound, fun v e he _ => ?_⟩
  by_cases hv : v = 0
  · subst hv
    decide
  · rw [onePage, pte_setPte_of_ne _ hv] at he
    cases he

/-- Of three bytes the first two fit in the last page of the user. -/
theorem copyout_exact_onePage : CopiesExactly noMemory bare onePage 4094 [1, 2, 3] := by
  refine (copyout_exact_iff bare proper_onePage (by decide) (by decide)).mpr fun v hv _ => ?_
  have hlt : v / NPTENTRIES = 0 := by
    have := (inRange_iff.mp hv).2.2
    simp only [PGSIZE, NPTENTRIES, List.length_cons, List.length_nil] at this ⊢
    omega
  rw [hlt]
  exact Option.some_ne_none _

/-- A machine where the word at address 0 of the user's page 2002 passes for the entry of page 1002. -/
def nullEntry : Vm := { noMemory with mem := Function.update noMemory.mem 2002 (Buffer.setWord 4 .zero 0 (1002 * PGSIZE + 7)) }

theorem proper_bare (vm : Vm) : bare.Proper vm := ⟨sound_bare vm, fun _ _ he => nomatch he⟩

/-- A byte for an address space without pages is stored in a page that it has nothing to do with. -/
theorem copyout_through_null : bare.Proper nullEntry ∧ ¬CopiesExactly nullEntry onePage bare 0 [5] ∧
    ∃ vm', nullEntry.copyout onePage bare 0 [5] = .ok (true, vm') ∧
      (nullEntry.mem 1002).byte 0 = 0 ∧ (vm'.mem 1002).byte 0 = 5 := by
  refine ⟨proper_bare _, fun h => ?_, _, rfl, by decide +kernel, by decide +kernel⟩
  exact h.1 0 (by decide +kernel) rfl

end Vm
end Xv6
