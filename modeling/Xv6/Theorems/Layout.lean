import Xv6.Theorems.ExecSafe

/-! What `exec` leaves on the stack of the new image. -/

namespace Xv6
open Bytes
open Function (update)
open Outcome (ok_bind)
set_option synthInstance.maxSize 256

namespace Loader
open Vm Kernel
variable {o : Others} {b : Build} {k k' : Kernel} {cur d : Pgdir} {vm : Vm} {v q sp : Nat}

/-- The stack of a process that is about to enter `main`: the exit code is at `ret`, the code of `_sigreturn` at `ret_add`,
    and the arguments are at `addrs`. The last page of the process is the stack, and the page below is not the user's. -/
structure Layout (code : List UInt8) (argv : List (List UInt8)) (k : Kernel) (v ret : Nat) (addrs : List Nat) : Prop where
  size : k.proc.sz = v * PGSIZE + PGSIZE
  guard : 0 < v ∧ ∀ a, a / PGSIZE = v - 1 → ∀ c, k.space a = some c → c.user = false
  count : addrs.length = argv.length
  loads : ∀ r ∈ regions code argv k ret addrs, k.space.load r.addr r.bytes.length = some r.bytes
  inside : ∀ r ∈ regions code argv k ret addrs, v * PGSIZE ≤ r.addr ∧ r.top ≤ v * PGSIZE + PGSIZE
  apart : (regions code argv k ret addrs).Pairwise fun r s => r.top ≤ s.addr

theorem space_of_guarded {a : Nat} {c : Cell} (hd : k.proc.pgdir = some d) (hg : Guarded d (a / PGSIZE)) (h : k.space a = some c) :
    c.user = false := by
  simp only [space, hd] at h
  split at h
  · rename_i he
    cases h
    exact hg.2 _ he
  · cases h

theorem Layout.of_laid {code : List UInt8} {argv : List (List UInt8)} {ret : Nat} {addrs : List Nat} (hd : k.proc.pgdir = some d)
    (st : StackPage d v q) (hsz : k.proc.sz = v * PGSIZE + PGSIZE) (hcount : addrs.length = argv.length)
    (h : Laid (k.vm.mem q) v sp (regions code argv k ret addrs)) : Layout code argv k v ret addrs where
  size := hsz
  guard := ⟨st.pos, fun a ha _ hc => space_of_guarded hd (ha ▸ st.guard) hc⟩
  count := hcount
  loads r hr := by
    obtain ⟨hlo, hhi⟩ := h.inside r hr
    have hload : k.space.load r.addr r.bytes.length = some ((k.vm.mem q).getBytes (r.addr - v * PGSIZE) r.bytes.length) :=
      Space.load_page fun j hj => by
        have hsp := h.low
        rw [Region.top] at hhi
        rw [space_of_maps hd st.maps (by omega) (by omega), Nat.sub_add_comm (h.low.trans hlo)]
    rw [hload, h.bytes r hr]
  inside r hr := ⟨h.low.trans (h.inside r hr).1, (h.inside r hr).2⟩
  apart := h.apart

theorem stackOn_layout {P : Nat → Prop} {vm₀ : Vm} {entry : Nat} {path : List UInt8} {argv : List (List UInt8)}
    (hb : Building P P vm₀ k.vm d) (him : Image o d (v + 1)) (hpos : 0 < v) (hv : v < KERNPAGE) (hcur : cur.Owns (¬P ·)) :
    (stackOn b k cur d (v * PGSIZE + PGSIZE) entry path argv).Ensures fun r => r.1 = 0 →
      ∃ ret addrs, Layout b.sigreturnCode argv r.2 v ret addrs := by
  obtain ⟨d₁, hclear, htop, e, he, huser, -⟩ := clearpteu_stacked him hpos hv (stack_top hpos hv).1 k.vm
  have hmaps : Maps d₁ v e.page := ⟨htop.tables v le_rfl, e, he, huser, rfl⟩
  refine (stackOn_laid hb hpos hv hcur).mono fun r hr hzero => ?_
  obtain ⟨d', addrs, hclear', st, hpgdir, hsz, hcount, page, hlaid, hpage⟩ := hr hzero
  cases hclear.symm.trans hclear'
  exact ⟨_, addrs, .of_laid hpgdir (st.page hmaps) hsz hcount (hpage _ hmaps ▸ hlaid)⟩

/-! ### The initial stack -/

/-- When `exec` returns 0 the stack of the new image is as `main` expects it, unless a page table could not be allocated
    or a segment with contents goes around the end of the address space. -/
theorem exec_layout (hr : Ready o k.vm) (hcur : ∀ cur, k.proc.pgdir = some cur → cur.Owns (¬Handed o k.vm ·)) {path : List UInt8}
    {argv : List (List UInt8)} (hprog : Program (fun ph => phVaddr ph % PGSIZE ≠ 0 ∨ Straight ph) o b k path)
    (hrun : (exec (allocuvm o) b k path argv).out = .ok (0, k')) : ∃ v ret addrs, Layout b.sigreturnCode argv k' v ret addrs := by
  suffices hpost : (exec (allocuvm o) b k path argv).out.Ensures fun r => r.1 = 0 → ∃ v ret addrs, Layout b.sigreturnCode argv r.2 v ret addrs from
    hpost.of_eq_ok hrun rfl
  cases hpgdir : k.proc.pgdir with
  | none =>
    rw [exec, hpgdir]
    trivial
  | some cur =>
  rw [exec_of_pgdir hpgdir]
  refine (execIn_spec hr hprog (fun _ _ => trivial) (fun ph hph => ⟨fun _ => trivial, fun hal => hph.resolve_left (not_not.mpr hal)⟩)
    (Outcome.ensures_true _) (fun _ hzero => by cases hzero) (fun k₁ pgdir ip _ _ => ?_)
    fun k₁ d₁ sz entry res hstack hb him hsz htab => ?_).out
  · exact (bad_fails k₁ pgdir (some ip)).mono fun r hr hzero => absurd hzero hr
  · obtain ⟨vm₂, d₂, hb₂, hres⟩ := stack_cases hr.valid hr.kend (finds_handed o k.vm) hb him hsz htab hstack
    rcases hres with ⟨rfl, -⟩ | ⟨v, hpos, hv, him₂, rfl⟩
    · exact (bad_fails _ _ _).mono fun r hr hzero => absurd hzero hr
    · exact (stackOn_layout hb₂ him₂ hpos hv (hcur cur hpgdir)).mono fun r hr hzero => ⟨v, hr hzero⟩

/-! ### A program with one argument -/

theorem stackOn_runs (cur : Pgdir) {d₁ : Pgdir} (hv : v < KERNPAGE) (hclear : k.vm.clearpteu d (sub32 (v * PGSIZE + PGSIZE) (2 * PGSIZE)) = .ok d₁)
    (hlook : Looks cur d₁ v q k.vm) (hq : q < PHYSTOP / PGSIZE) (hkend : 0 < k.vm.kend) (hcur : cur.Owns (Valid k.vm)) (path : List UInt8) :
    ∃ k', stackOn plain k cur d (v * PGSIZE + PGSIZE) 0 path [[97]] = .ok (0, k') ∧ k'.proc.pgdir = some d₁ ∧
      k'.proc.sz = v * PGSIZE + PGSIZE := by
  obtain ⟨vm₁, hlook₁, hkend₁, hstack⟩ := stackOn_starts hv hclear hlook hq
  obtain ⟨k', hstart, hpgdir, hsz, -⟩ := @start_runs d₁ cur v q
    { k with vm := vm₁, proc := { k.proc with retAdd := .ofNat (v * PGSIZE + 4072) } } hv hlook₁ hq (hkend₁.symm ▸ hkend)
    (owns_mono hcur fun p hp => ⟨hkend₁.symm ▸ hp.1, hp.2⟩) (v * PGSIZE + PGSIZE) 0 path
  exact ⟨k', (hstack 0 path [[97]]).trans hstart, hpgdir, hsz⟩

theorem before_apart {m : Nat → Page} {fs : Fs} : Kernel.onePage.Owns (¬Handed ample (before m fs).vm ·) := by
  have hlow : ∀ p, p < 1000 → ¬Handed ample (before m fs).vm p := fun p hp hhanded => by
    have hfree : p ∈ (before m fs).vm.free ↔ 1000 ≤ p ∧ p < 1100 := List.mem_range'_1
    simp only [Handed, hfree, ample, List.mem_singleton] at hhanded
    rcases hhanded with hh | ⟨v, hh | hh⟩ <;> omega
  exact onePage_owns (hlow 600 (by decide)) (hlow 601 (by decide)) (hlow 602 (by decide))

/-- A program of one page: its argument and the two pieces of code are on its stack. -/
theorem exec_layout_one : ∃ (fs : Fs) (k' : Kernel) (v ret : Nat) (addrs : List Nat),
    (exec (allocuvm ample) plain (before (fun _ => .zero) fs) [SLASH, 97] [[97]]).out = .ok (0, k') ∧
    Layout plain.sigreturnCode [[97]] k' v ret addrs := by
  obtain ⟨fs, fs₁, fs₂, fs₃, fs₄, fs₅, h⟩ := opens_of_run (segment 0 0 4096) (by decide +kernel)
  have hr : Ready ample (before (fun _ => .zero) fs).vm := ample_ready
  have hfound : ∀ v, ample.page v ≠ [] := fun _ => List.cons_ne_nil _ _
  obtain ⟨vm₁, d₁, hb, him, hexec⟩ := exec_empty hr hfound (ample_tables _) h (by decide +kernel) (by decide +kernel)
    (by decide +kernel) (show _ = 4096 by decide +kernel) (by decide) (by decide) [[97]]
  generalize hrun : stack (allocuvm ample) plain _ Kernel.onePage d₁ 4096 0 [SLASH, 97] [[97]] = res at hexec
  obtain ⟨vm₂, d₂, hb₂, hres⟩ := stack_cases (k := { before (fun _ => .zero) fs₅ with vm := vm₁ }) hr.valid hr.kend
    (finds_handed ample _) hb him (by decide) (ample_tables _) hrun
  rcases hres with ⟨-, hno⟩ | ⟨v, hpos, hv, him₂, hstack⟩
  · exact absurd (hno (by decide)) fun ⟨v, hv⟩ => hfound v hv
  obtain ⟨d₃, hclear, htop, e, he, huser, hgiven⟩ := clearpteu_stacked him₂ hpos hv (stack_top hpos hv).1 vm₂
  have hpage : Valid (before (fun _ => .zero) fs).vm e.page := hr.valid _ (.inr ⟨v, .inl (List.mem_of_mem_head? hgiven)⟩)
  obtain ⟨k', hk', -⟩ := stackOn_runs Kernel.onePage (k := { before (fun _ => .zero) fs₅ with vm := vm₂ }) hv hclear
    (fun _ _ _ => uva2ka_of_maps ⟨htop.tables v le_rfl, e, he, huser, rfl⟩) hpage.2 (hb₂.kend ▸ hr.kend)
    (owns_mono before_owns fun p hp => ⟨hb₂.kend ▸ hp.1, hp.2⟩) [SLASH, 97]
  have hok : (exec (allocuvm ample) plain (before (fun _ => .zero) fs) [SLASH, 97] [[97]]).out = .ok (0, k') := hexec.trans (hstack ▸ hk')
  obtain ⟨v', ret, addrs, hlayout⟩ := exec_layout hr (fun _ hcur => Option.some.inj hcur ▸ before_apart)
    (h.program ample_tables (.inr (.inl (by decide +kernel)))) hok
  exact ⟨fs, k', v', ret, addrs, hok, hlayout⟩

/-! ### A stack without a page table -/

/-- No page is found for the page table of page 1024. -/
def lacking : Others := { ample with table := fun v => if v = 1024 then [] else ample.table v }

theorem lacking_handed {p : Nat} (h : Handed lacking vm p) : Handed ample vm p := by
  rcases h with h | ⟨v, h | h⟩
  · exact .inl h
  · exact .inr ⟨v, .inl h⟩
  · dsimp only [lacking] at h
    split at h
    · cases h
    · exact .inr ⟨v, .inr h⟩

theorem alloc_lacking {P : Nat → Prop} {vm₀ : Vm} (hfinds : Finds lacking P) (hb : Building P P vm₀ vm d) (him : Image lacking d 1023) :
    ∃ vm' d', allocuvm lacking vm d (1023 * PGSIZE) (1025 * PGSIZE) = .ok (1025 * PGSIZE, vm', d') ∧ Building P P vm₀ vm' d' ∧
      Image lacking d' 1024 := by
  have hp : ∀ v, P (2000 + 2 * (v % 4096)) := fun v => (hfinds v).1 _ List.mem_cons_self
  have hgive : ∀ {vm : Vm} {d : Pgdir} (v : Nat), Building P P vm₀ vm d →
      Building P P vm₀ { vm with mem := update vm.mem (2000 + 2 * (v % 4096)) .zero, free := lacking.table v } d := fun {vm d} v h =>
    have hfree : Pooled P P vm₀ { vm with free := lacking.table v } := ⟨h.mem, (hfinds v).2, h.kend, h.data⟩
    ⟨hfree.set (hp v) .zero, h.built⟩
  obtain ⟨vm₁, d₁, hmap, him₁⟩ := him.round (by decide)
    { vm with mem := update vm.mem (2000 + 2 * (1023 % 4096)) .zero, free := lacking.table 1023 } rfl fun hmod => nomatch hmod
  have hb₁ : Building P P vm₀ vm₁ d₁ := (Building.mappages (fun h => h) 1 (hgive 1023 hb) fun j hj _ => by
    obtain rfl : j = 0 := by omega
    exact hp 1023).of_eq_ok hmap
  have hnone : d₁.table (1024 / NPTENTRIES) = none := him₁.tables 1 (by decide) (by decide)
  refine ⟨_, d₁, ?_, hgive 1024 hb₁, him₁⟩
  have hwalk : walkpgdir { vm₁ with mem := update vm₁.mem (2000 + 2 * (1024 % 4096)) .zero, free := lacking.table 1024 } d₁
      1024 true = none := by
    unfold walkpgdir
    rw [hnone]
    rfl
  have hpage : ∀ v, lacking.page v = [2000 + 2 * (v % 4096)] := fun _ => rfl
  have hround : pgroundup (1023 * PGSIZE) = 1023 * PGSIZE := by decide
  have hleft : 1025 * PGSIZE / PGSIZE + 1 = 1023 + 3 := by decide
  have h₁ : 1023 * PGSIZE / PGSIZE = 1023 := by decide
  have h₂ : 1023 * PGSIZE + PGSIZE = 1024 * PGSIZE := by decide
  have h₃ : 1024 * PGSIZE / PGSIZE = 1024 := by decide
  rw [allocuvm, if_neg (by decide), if_neg (by decide), hround, hleft, allocuvmFrom, if_pos (by decide), h₁, hpage]
  dsimp only [kalloc]
  rw [hmap, ok_bind, h₂, allocuvmFrom, if_pos (by decide), h₃, hpage]
  dsimp only [kalloc]
  rw [mappages_one, hwalk, ok_bind, allocuvmFrom, if_neg (by decide)]

theorem load_unmapped {a n : Nat} (hd : k.proc.pgdir = some d) (ht : d.table (a / PGSIZE / NPTENTRIES) = none) :
    k.space.load a (n + 1) = none := by
  have hnone : k.space (a + 0) = none := by simp only [space, hd, Nat.add_zero, ht]
  rw [Space.load, List.range_succ_eq_map, List.mapM_cons, hnone]
  rfl

/-- The word at address 0 of the caller looks like an entry of a page table for its own page. -/
def selfWord : Nat → Page := update (fun _ => .zero) 602 (Buffer.zero.setWord 4 0 (602 * PGSIZE + 7))

/-- A program of 1023 pages: the stack gets the first page of the next page table, for which there is no memory. `exec`
    does not notice it and returns 0, with the strings in the page of the caller. -/
theorem exec_stack_unmapped : ∃ (fs : Fs) (k' : Kernel), Ready lacking (before selfWord fs).vm ∧
    Kernel.onePage.Owns (¬Handed lacking (before selfWord fs).vm ·) ∧
    (exec (allocuvm lacking) plain (before selfWord fs) [SLASH, 97] [[97]]).out = .ok (0, k') ∧
    ¬∃ v ret addrs, Layout plain.sigreturnCode [[97]] k' v ret addrs := by
  obtain ⟨fs, fs₁, fs₂, fs₃, fs₄, fs₅, h⟩ := opens_of_run (segment 0 0 (1023 * PGSIZE)) (by decide +kernel)
  have hr : Ready lacking (before selfWord fs).vm := ⟨ample_ready.linked, ample_ready.kend, fun p hp => ample_ready.valid p (lacking_handed hp)⟩
  have happart : Kernel.onePage.Owns (¬Handed lacking (before selfWord fs).vm ·) := owns_mono before_apart fun p hp hh =>
    hp (lacking_handed hh)
  have htab : TablesMet lacking (1023 * PGSIZE) := fun _ v hv _ _ => by
    have hne : v ≠ 1024 := by
      simp only [PGSIZE] at hv
      omega
    dsimp only [lacking]
    rw [if_neg hne]
    exact List.cons_ne_nil _ _
  obtain ⟨vm₁, d₁, hb, him, hexec⟩ := exec_empty hr (fun _ => List.cons_ne_nil _ _) htab h (by decide +kernel) (by decide +kernel)
    (by decide +kernel) (show _ = 1023 * PGSIZE by decide +kernel) (by decide) (by decide) [[97]]
  obtain ⟨vm₂, d₂, halloc, hb₂, him₂⟩ := alloc_lacking (finds_handed lacking _) hb him
  have htable : d₂.table (1023 / NPTENTRIES) ≠ none := him₂.table_ne (by decide)
  have hnone : d₂.table (1024 / NPTENTRIES) = none := him₂.tables 1 (by decide) (by decide)
  have hclear : vm₂.clearpteu d₂ (sub32 (1024 * PGSIZE + PGSIZE) (2 * PGSIZE)) =
      .ok (setPte d₂ 1023 ((d₂.pte 1023).map fun e => { e with user := false })) := by
    have hva : sub32 (1024 * PGSIZE + PGSIZE) (2 * PGSIZE) / PGSIZE = 1023 := by decide
    rw [clearpteu, hva, walkpgdir_of_table htable]
  generalize hd₃ : setPte d₂ 1023 ((d₂.pte 1023).map fun e => { e with user := false }) = d₃ at hclear
  have hnone₃ : d₃.table (1024 / NPTENTRIES) = none := by rw [← hd₃]; exact hnone
  have hword : (vm₂.mem 602).word 4 0 = 602 * PGSIZE + 7 := by
    rw [hb₂.mem 602 (happart.low 0 ⟨602, true, true⟩ rfl (by decide))]
    show ((selfWord 602).word 4 0) = _
    rw [selfWord, Function.update_self, Buffer.word_setWord_same _ _ (by decide)]
    decide
  have hlook : Looks Kernel.onePage d₃ 1024 602 vm₂ := fun vm₃ _ hsame => by
    have hpte : Kernel.onePage.pte 0 = some ⟨602, true, true⟩ := rfl
    rw [uva2ka, walkpgdir, hnone₃, hpte]
    dsimp only
    rw [if_pos rfl]
    dsimp only
    rw [hsame, hword]
    decide
  obtain ⟨k', hk', hpgdir, hsz⟩ := stackOn_runs Kernel.onePage (k := { before selfWord fs₅ with vm := vm₂ }) (by decide) hclear hlook
    (by decide) (hb₂.kend ▸ hr.kend) (owns_mono before_owns fun p hp => ⟨hb₂.kend ▸ hp.1, hp.2⟩) [SLASH, 97]
  refine ⟨fs, k', hr, happart, ?_, ?_⟩
  · rw [hexec, stack]
    dsimp only
    have hround : pgroundup (1023 * PGSIZE) = 1023 * PGSIZE := by decide
    have hnew : (1023 * PGSIZE + 2 * PGSIZE) % 2 ^ 32 = 1025 * PGSIZE := by decide
    rw [hround, hnew, halloc, ok_bind]
    dsimp only
    rw [if_neg (by decide)]
    exact hk'
  · rintro ⟨v, ret, addrs, hlayout⟩
    have hmem : (⟨ret, exitCode⟩ : Region) ∈ regions plain.sigreturnCode [[97]] k' ret addrs := by simp [regions]
    obtain ⟨hlo, hhi⟩ := hlayout.inside _ hmem
    have hv : v * PGSIZE + PGSIZE = 1024 * PGSIZE + PGSIZE := hlayout.size.symm.trans hsz
    have hpage : ret / PGSIZE = 1024 := by
      simp only [Region.top, exitCode, List.length_cons, List.length_nil, PGSIZE] at *
      omega
    have hload := hlayout.loads _ hmem
    have hunmapped : k'.space.load ret (7 + 1) = none := load_unmapped hpgdir (hpage.symm ▸ hnone₃)
    cases hunmapped.symm.trans hload

end Loader
end Xv6
