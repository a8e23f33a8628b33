import Xv6.Theorems.Exit
import Xv6.Theorems.Loader

/-! `exec` for any program file: where the contents of the file go, and that no assertion of the memory management fails. -/

namespace Xv6
open Outcome (ensures_true ok_bind)
set_option synthInstance.maxSize 256
open Bytes

namespace Loader
open Vm Kernel
variable {o : Others} {b : Build} {k : Kernel} {cur d : Pgdir} {vm vm₀ : Vm} {P : Nat → Prop} {v : Nat}

/-! ### The kernel's part -/

def Bare (d : Pgdir) : Prop := ∀ u e, d.pte u = some e → e.user = false

theorem mappages_bare (writable : Bool) : ∀ (n : Nat) {vm : Vm} {d : Pgdir} (v p : Nat), Bare d →
    (mappages writable false n vm d v p).Ensures fun r => Bare r.2.2
  | 0, _, _, _, _, h => h
  | n + 1, vm, d, v, p, h => by
    rw [mappages]
    split
    · exact h
    rename_i vm₁ d₁ hw
    split
    · trivial
    have h₁ : Bare d₁ := fun u e he => by
      rcases walkpgdir_cases hw with ⟨-, rfl, -⟩ | ⟨t, -, -, -, rfl⟩
      · exact h u e he
      · dsimp only at he
        split at he
        · cases he
        · exact h u e he
    refine mappages_bare writable n _ _ fun u e he => ?_
    by_cases huv : u = v
    · subst huv
      rw [pte_setPte_self] at he
      cases he
      rfl
    · rw [pte_setPte_of_ne d₁ huv] at he
      exact h₁ u e he

theorem setupkvmFrom_bare : ∀ (ks : List (Nat × Nat × Nat × Bool)) {vm : Vm} {d : Pgdir}, Bare d →
    (setupkvmFrom ks vm d).Ensures fun r => ∀ d', r.1 = some d' → Bare d'
  | [], _, _, h => fun _ heq => Option.some.inj heq ▸ h
  | (v, p, n, writable) :: ks, _, _, h => by
    rw [setupkvmFrom]
    refine (mappages_bare writable n v p h).bind fun r hr => ?_
    dsimp only
    split
    · exact setupkvmFrom_bare ks hr
    · exact fun _ heq => by cases heq

theorem setupkvm_image (o : Others) (hl : Linked vm) (hfree : ∀ p ∈ vm.free, P p) :
    ∃ pgdir vm', vm.setupkvm = .ok (pgdir, vm') ∧ (65 ≤ vm.free.length → pgdir ≠ none) ∧ Pooled P P vm vm' ∧
      ∀ d, pgdir = some d → Building P P vm vm' d ∧ Image o d 0 := by
  have hpool := Pooled.setupkvm (Pooled.start (W := P) hfree)
  rcases setupkvm_ends hl with ⟨hfew, vm', hset, -⟩ | ⟨-, d, vm', hset, hfresh, -, htab, -⟩
  · exact ⟨none, vm', hset, fun h => absurd hfew (Nat.not_lt.mpr h), (hpool.of_eq_ok hset).1, fun d heq => by cases heq⟩
  refine ⟨some d, vm', hset, fun _ => Option.some_ne_none d, (hpool.of_eq_ok hset).1, fun d' heq => ?_⟩
  obtain rfl := Option.some.inj heq
  refine ⟨(hpool.of_eq_ok hset).2 d rfl, hfresh.sparse, fun v hv => absurd hv (Nat.not_lt_zero v), fun v _ hv => hfresh.low v hv,
    fun v _ => ?_, fun v hlo hhi => (htab _).mpr (mem_kernelTables.mpr (.inr ?_)), fun i _ hi => hfresh.table i hi⟩
  · rw [setupkvm] at hset
    split at hset
    · cases hset
    · have hempty : ∀ p, Bare { dir := p, table := fun _ => none, pte := fun _ => none } := fun p u e he => by cases he
      exact (setupkvmFrom_bare _ (hempty _)).of_eq_ok hset d rfl v
  · simp only [DEVSPACE, PGSIZE, NPTENTRIES] at *
    omega

/-! ### The program headers of a file -/

/-- A page that `kalloc` may give to `exec`. -/
def Handed (o : Others) (vm : Vm) (p : Nat) : Prop := p ∈ vm.free ∨ ∃ v, p ∈ o.page v ∨ p ∈ o.table v

/-- The kernel has its place in memory, and `kalloc` gives out pages of the rest. -/
structure Ready (o : Others) (vm : Vm) : Prop where
  linked : Linked vm
  kend : 0 < vm.kend
  valid : ∀ p, Handed o vm p → Valid vm p

theorem finds_handed (o : Others) (vm : Vm) : Finds o (Handed o vm) := fun v =>
  ⟨fun _ hp => .inr ⟨v, .inl hp⟩, fun _ hp => .inr ⟨v, .inr hp⟩⟩

theorem exec_of_pgdir (h : k.proc.pgdir = some cur) (path : List UInt8) (argv : List (List UInt8)) :
    exec (allocuvm o) b k path argv = execIn (allocuvm o) b k cur path argv := by
  rw [exec, h]

section Exec
variable {Q : List UInt8 → Prop} {post : Int × Kernel → Prop} {bad : Option String → Prop} {path : List UInt8}
  {argv : List (List UInt8)}

theorem execIn_spec (hr : Ready o k.vm) (hprog : Program Q o b k path) (hfs : ∀ o, Fs.Panics o → bad o)
    (hQ : ∀ ph, Q ph → (phVaddr ph % PGSIZE ≠ 0 → bad (some "loaduvm: addr must be page aligned")) ∧
      (phVaddr ph % PGSIZE = 0 → Straight ph))
    (hnamei : (k.fs.namei b.devsw k.proc.cwd path).Spec (fun _ => True) bad) (hnone : ∀ k', post (-1, k'))
    (hbad : ∀ (k' : Kernel) pgdir ip, Pooled (Handed o k.vm) (Handed o k.vm) k.vm k'.vm →
      (∀ d, pgdir = some d → d.Built (Handed o k.vm)) → (k'.bad pgdir (some ip)).Spec post bad)
    (hstack : ∀ (k' : Kernel) d sz entry r, stack (allocuvm o) b k' cur d sz entry path argv = r →
      Building (Handed o k.vm) (Handed o k.vm) k.vm k'.vm d → Image o d (pgroundup sz / PGSIZE) → sz < KERNBASE →
      TablesMet o ((pgroundup sz + 2 * PGSIZE) % 2 ^ 32) → r.Spec post bad) :
    (execIn (allocuvm o) b k cur path argv).Spec (Own o) post bad := by
  have hstart : Pooled (Handed o k.vm) (Handed o k.vm) k.vm k.vm := .start fun _ hp => .inl hp
  have hnext : ∀ {α : Type} {x : Outcome α}, x.Spec (fun _ => True) bad → x.Spec (fun a => x = .ok a) bad := fun h =>
    h.self.mono (fun _ h => h.2) fun _ h => h
  have hyields : ∀ {α : Type} {x : Outcome α} {p}, Fs.Yields x p → x.Spec (fun a => x = .ok a) bad := fun h =>
    hnext (Outcome.Spec.mono h (fun _ _ => trivial) hfs)
  have hnil : ∀ d : Pgdir, none = some d → d.Built (Handed o k.vm) := fun _ h => by cases h
  rw [execIn]
  refine Traced.Spec.bind (.lift (hnext hnamei)) ?_
  rintro ⟨found, fs₁⟩ hfound
  cases found with
  | none => exact .pure (hnone _)
  | some ip =>
  dsimp only
  refine Traced.Spec.bind (.lift (hyields ((Fs.Holding.start fs₁).ilock ip))) fun fs₂ hlock => ?_
  refine Traced.Spec.bind (.lift (hyields (Fs.readi_cache b.devsw fs₂ ip 0 (.ofNat ELFHDR)))) ?_
  rintro ⟨r, bs, fs₃⟩ hread
  dsimp only
  split
  · exact .lift (hbad _ none ip hstart hnil)
  rename_i hlong
  split
  · exact .lift (hbad _ none ip hstart hnil)
  rename_i hmagic
  obtain ⟨pgdir, vm₁, hset, -, hpool, himage⟩ := setupkvm_image (P := Handed o k.vm) o hr.linked fun _ hp => .inl hp
  have hset' : k.beginOp.vm.setupkvm = .ok (pgdir, vm₁) := hset
  rw [hset', Traced.lift_bind]
  cases pgdir with
  | none => exact .lift (hbad _ none ip hpool hnil)
  | some d =>
  dsimp only
  obtain ⟨hb, him⟩ := himage d rfl
  have hzero : Image o d (pgroundup 0 / PGSIZE) := him
  have hload := load_spec hr.valid hr.kend (finds_handed o k.vm) hfs hQ _ b.ph
    (hprog ip fs₁ fs₂ r bs fs₃ d vm₁ hfound hlock hread hlong (not_not.mp hmagic) hset) hb hzero (by decide)
  refine Traced.Spec.bind hload ?_
  rintro ⟨loaded, k₁, d₁⟩ ⟨hb₁, him₁⟩
  cases loaded with
  | none => exact .lift (hbad k₁ (some d₁) ip hb₁.toPooled fun d heq => Option.some.inj heq ▸ hb₁.built)
  | some sz =>
  refine Traced.Spec.bind (.lift (hyields (Fs.iunlockput_yields k₁.fs ip))) fun fs₄ _ => ?_
  obtain ⟨him₂, hsz, htab⟩ := him₁ sz rfl
  dsimp only
  generalize hrun : stack (allocuvm o) b _ cur d₁ sz _ path argv = res
  exact .lift (hstack _ d₁ sz _ res hrun hb₁ him₂ hsz htab)

end Exec

/-! ### A program with one segment -/

/-- The header of an executable file with one program header, which comes next. -/
def elfOne : List UInt8 :=
  [0x7f, 0x45, 0x4c, 0x46] ++ List.replicate 24 0 ++ toLe 4 52 ++ List.replicate 12 0 ++ [1, 0] ++ List.replicate 6 0

/-- The program header of a segment whose contents come next. -/
def segment (vaddr filesz memsz : Nat) : List UInt8 :=
  toLe 4 ELF_PROG_LOAD ++ toLe 4 84 ++ toLe 4 vaddr ++ toLe 4 0 ++ toLe 4 filesz ++ toLe 4 memsz ++ List.replicate 8 0

/-- A disk with a root directory and the file `/a`, a program with this segment. -/
def segmentDisk (ph : List UInt8) : Outcome Fs :=
  Machine.runList (Fs.step plain.devsw) Fs.blank
    [.ialloc 1, .ialloc 2, .ilock 0, .ilock 1, .setLinks 0 0 0 1, .setLinks 1 0 0 1,
      .writei 1 (fun j => (elfOne ++ ph ++ [1, 2, 3, 4]).getD j 0) 0 88, .dirlink 0 (fun j => [97].getD j 0) 2, .iunlock 0,
      .iunlock 1, .iput 0, .iput 1]

/-- The file is found in slot 1 of the inode cache, and its headers are read. -/
structure OpensSegment (ph : List UInt8) (fs fs₁ fs₂ fs₃ fs₄ fs₅ : Fs) : Prop where
  namei : fs.namei plain.devsw none [SLASH, 97] = .ok (some 1, fs₁)
  ilock : fs₁.ilock 1 = .ok fs₂
  header : fs₂.readi plain.devsw 1 0 (.ofNat ELFHDR) = .ok (52, elfOne, fs₃)
  segment : fs₃.readi plain.devsw 1 52 (.ofNat PROGHDR) = .ok (32, ph, fs₄)
  close : fs₄.iunlockput 1 = .ok fs₅

theorem opens_of_run (ph : List UInt8) (h : ∃ fs, segmentDisk ph = .ok fs ∧
    ∃ r, fs.namei plain.devsw none [SLASH, 97] = .ok r ∧ r.1 = some 1 ∧ ∃ fs₂, r.2.ilock 1 = .ok fs₂ ∧
    ∃ x, fs₂.readi plain.devsw 1 0 (.ofNat ELFHDR) = .ok x ∧ x.1 = 52 ∧ x.2.1 = elfOne ∧
    ∃ y, x.2.2.readi plain.devsw 1 52 (.ofNat PROGHDR) = .ok y ∧ y.1 = 32 ∧ y.2.1 = ph ∧ ∃ fs₅, y.2.2.iunlockput 1 = .ok fs₅) :
    ∃ fs fs₁ fs₂ fs₃ fs₄ fs₅, OpensSegment ph fs fs₁ fs₂ fs₃ fs₄ fs₅ := by
  obtain ⟨fs, -, ⟨_, fs₁⟩, hnamei, rfl, fs₂, hilock, ⟨_, _, fs₃⟩, hheader, rfl, rfl, ⟨_, _, fs₄⟩, hsegment, rfl, rfl, fs₅, hclose⟩ := h
  exact ⟨fs, fs₁, fs₂, fs₃, fs₄, fs₅, hnamei, hilock, hheader, hsegment, hclose⟩

/-- A process with one page is about to call `exec`, on a machine with this memory and 100 free pages. -/
def before (m : Nat → Page) (fs : Fs) : Kernel :=
  { caller fs (List.range' 1000 100) with vm := { (caller fs (List.range' 1000 100)).vm with mem := m } }

section Segment
variable {ph : List UInt8} {fs fs₁ fs₂ fs₃ fs₄ fs₅ : Fs} {m : Nat → Page}

theorem OpensSegment.program {Q : List UInt8 → Prop} (h : OpensSegment ph fs fs₁ fs₂ fs₃ fs₄ fs₅) (htab : ∀ sz, TablesMet o sz) (hQ : Q ph) :
    Program Q o plain (before m fs) [SLASH, 97] := by
  refine .of_opens h.namei h.ilock h.header fun d vm => ?_
  have hphnum : elfPhnum (fill plain.elf elfOne) = 1 := by decide +kernel
  have hphoff : elfPhoff (fill plain.elf elfOne) = 52 := by decide +kernel
  have hfill : fill plain.ph ph = ph := by simp [fill, plain]
  rw [hphnum, hphoff]
  intro bs fs' hread
  have hread' : (Outcome.ok (32, ph, fs₄) : Outcome (Int × List UInt8 × Fs)) = .ok (32, bs, fs') := h.segment.symm.trans hread
  cases hread'
  rw [hfill]
  dsimp only
  split
  · exact htab _
  · exact fun _ => ⟨htab _, fun _ _ _ _ _ => ⟨hQ, fun _ _ _ => htab _⟩⟩

/-- The headers are read and the pages of the segment are allocated: then `exec` goes to load the segment, and after that
    to the stack. -/
theorem exec_loads (h : OpensSegment ph fs fs₁ fs₂ fs₃ fs₄ fs₅) {sz : Nat} {vm vm₁ : Vm} {d₁ : Pgdir}
    (hset : (before m fs).vm.setupkvm = .ok (some d, vm)) (htype : phType ph = ELF_PROG_LOAD)
    (hsize : phFilesz ph ≤ phMemsz ph)
    (halloc : allocuvm o vm d 0 ((phVaddr ph + phMemsz ph) % 2 ^ 32) = .ok (sz, vm₁, d₁)) (hsz : sz ≠ 0)
    (argv : List (List UInt8)) : ∃ rest, exec (allocuvm o) plain (before m fs) [SLASH, 97] argv =
      loaduvm plain.devsw vm₁ fs₄ d₁ 1 (phVaddr ph) (phOff ph) (phFilesz ph) >>= rest ∧
      ∀ vm₂, (rest (true, vm₂, fs₄)).out = stack (allocuvm o) plain { before m fs₅ with vm := vm₂ } Kernel.onePage d₁ sz 0 [SLASH, 97] argv := by
  have hmagic : elfMagic (fill plain.elf elfOne) = ELF_MAGIC := by decide +kernel
  have hphnum : elfPhnum (fill plain.elf elfOne) = 1 := by decide +kernel
  have hphoff : elfPhoff (fill plain.elf elfOne) = 52 := by decide +kernel
  have hnamei : (before m fs).beginOp.fs.namei plain.devsw (before m fs).beginOp.proc.cwd [SLASH, 97] = .ok (some 1, fs₁) :=
    h.namei
  have hset' : (before m fs).beginOp.vm.setupkvm = .ok (some d, vm) := hset
  have hfill : fill plain.ph ph = ph := by simp [fill, plain]
  have hsegment : fs₃.readi plain.devsw 1 (.ofNat 52) (.ofNat PROGHDR) = .ok (32, ph, fs₄) := h.segment
  rw [exec_of_pgdir (show (before m fs).proc.pgdir = some Kernel.onePage from rfl), execIn]
  dsimp only
  rw [hnamei, Traced.lift_bind]
  dsimp only
  rw [h.ilock, Traced.lift_bind, h.header, Traced.lift_bind]
  dsimp only
  rw [if_neg (by decide), hmagic, if_neg (by decide), hset', Traced.lift_bind]
  dsimp only
  rw [hphnum, hphoff, load, hsegment, Traced.lift_bind]
  dsimp only
  rw [hfill, if_neg (by decide), if_neg (not_not.mpr htype), if_neg (Nat.not_lt.mpr hsize), halloc, Traced.lift_bind]
  dsimp only
  rw [if_neg hsz, Traced.bind_assoc]
  refine ⟨_, rfl, fun vm₂ => ?_⟩
  have hentry : elfEntry (fill plain.elf elfOne) = 0 := by decide +kernel
  dsimp only
  rw [if_neg (by decide), load]
  simp only [Traced.out_bind, Traced.out_pure, ok_bind, Traced.out_lift, h.close, hentry]
  rfl

/-- Every call of `kalloc` finds a page, and no two of them the same in an image of up to 4096 pages. -/
def ample : Others where
  page v := [2000 + 2 * (v % 4096)]
  table v := [2001 + 2 * (v % 4096)]

theorem ample_tables (sz : Nat) : TablesMet ample sz := fun _ _ _ _ _ => List.cons_ne_nil _ _

theorem ample_ready : Ready ample (before m fs).vm where
  linked := ⟨show EXTMEM / PGSIZE ≤ 300 by decide, show 300 ≤ PHYSTOP / PGSIZE by decide⟩
  kend := show 0 < 500 by decide
  valid p hp := by
    have hkend : (before m fs).vm.kend = 500 := rfl
    have hfree : p ∈ (before m fs).vm.free ↔ 1000 ≤ p ∧ p < 1100 := List.mem_range'_1
    rw [Valid, hkend]
    simp only [Handed, hfree, ample, List.mem_singleton] at hp
    simp only [PHYSTOP, PGSIZE]
    rcases hp with hp | ⟨v, hp | hp⟩ <;> omega

theorem exec_reaches (hr : Ready o (before m fs).vm) (hfound : ∀ v, o.page v ≠ []) {newsz : Nat} (htab : TablesMet o newsz)
    (h : OpensSegment ph fs fs₁ fs₂ fs₃ fs₄ fs₅) (htype : phType ph = ELF_PROG_LOAD) (hsize : phFilesz ph ≤ phMemsz ph)
    (hnew : (phVaddr ph + phMemsz ph) % 2 ^ 32 = newsz) (hpos : 0 < newsz) (hbase : newsz < KERNBASE) (argv : List (List UInt8)) :
    ∃ vm₁ d₁ rest, Building (Handed o (before m fs).vm) (Handed o (before m fs).vm) (before m fs).vm vm₁ d₁ ∧
      Image o d₁ (pgroundup newsz / PGSIZE) ∧ exec (allocuvm o) plain (before m fs) [SLASH, 97] argv =
        loaduvm plain.devsw vm₁ fs₄ d₁ 1 (phVaddr ph) (phOff ph) (phFilesz ph) >>= rest ∧
      ∀ vm₂, (rest (true, vm₂, fs₄)).out =
        stack (allocuvm o) plain { before m fs₅ with vm := vm₂ } Kernel.onePage d₁ newsz 0 [SLASH, 97] argv := by
  obtain ⟨pgdir, vm, hset, hsome, -, hbuild⟩ := setupkvm_image (P := Handed o _) o hr.linked fun _ hp => .inl hp
  have hlen : (before m fs).vm.free.length = 100 := List.length_range'
  obtain ⟨d, rfl⟩ := Option.ne_none_iff_exists'.mp (hsome (hlen.symm ▸ (by decide : 65 ≤ 100)))
  obtain ⟨hb, him⟩ := hbuild d rfl
  have hzero : Image o d (pgroundup 0 / PGSIZE) := him
  obtain ⟨sz, vm₁, d₁, halloc, hb₁, hres⟩ := allocuvm_image hr.valid hr.kend (finds_handed o _) hb hzero htab
  obtain ⟨-, hsz, him₁⟩ := hres.resolve_right fun hno => (hno.2 hbase).elim fun v hv => hfound v hv
  obtain rfl : sz = newsz := hsz.trans (Nat.zero_max newsz)
  rw [← hnew] at halloc
  obtain ⟨rest, hrest, hout⟩ := exec_loads h hset htype hsize halloc (hnew ▸ Nat.ne_of_gt hpos) argv
  exact ⟨vm₁, d₁, rest, hb₁, him₁, hrest, hnew ▸ hout⟩

theorem exec_empty (hr : Ready o (before m fs).vm) (hfound : ∀ v, o.page v ≠ []) {newsz : Nat} (htab : TablesMet o newsz)
    (h : OpensSegment ph fs fs₁ fs₂ fs₃ fs₄ fs₅) (htype : phType ph = ELF_PROG_LOAD) (hfilesz : phFilesz ph = 0)
    (haligned : phVaddr ph % PGSIZE = 0) (hnew : (phVaddr ph + phMemsz ph) % 2 ^ 32 = newsz) (hpos : 0 < newsz) (hbase : newsz < KERNBASE)
    (argv : List (List UInt8)) :
    ∃ vm₁ d₁, Building (Handed o (before m fs).vm) (Handed o (before m fs).vm) (before m fs).vm vm₁ d₁ ∧
      Image o d₁ (pgroundup newsz / PGSIZE) ∧ (exec (allocuvm o) plain (before m fs) [SLASH, 97] argv).out =
        stack (allocuvm o) plain { before m fs₅ with vm := vm₁ } Kernel.onePage d₁ newsz 0 [SLASH, 97] argv := by
  obtain ⟨vm₁, d₁, rest, hb₁, him₁, hexec, hrest⟩ := exec_reaches hr hfound htab h htype (hfilesz ▸ Nat.zero_le _) hnew hpos hbase argv
  refine ⟨vm₁, d₁, hb₁, him₁, ?_⟩
  rw [hexec, loaduvm, if_neg (not_not.mpr haligned), hfilesz, loaduvmFrom, if_neg (Nat.lt_irrefl 0), Traced.out_bind, Traced.out_pure,
    ok_bind, hrest]

end Segment

/-! ### Where the contents of the file go -/

/-- Every byte of the file goes to a page that this `exec` has allocated for the user, unless a page table could not be
    allocated or a segment with contents goes around the end of the address space. -/
theorem exec_stores_own (hr : Ready o k.vm) (path : List UInt8) (argv : List (List UInt8))
    (hprog : Program (fun ph => phVaddr ph % PGSIZE ≠ 0 ∨ Straight ph) o b k path) :
    ∀ e ∈ (exec (allocuvm o) b k path argv).trace, Own o e ∧ Valid k.vm e.page := by
  suffices hown : ∀ e ∈ (exec (allocuvm o) b k path argv).trace, Own o e by
    intro e he
    obtain ⟨v, x, hv, hx, huser, hpage, hgiven⟩ := hown e he
    exact ⟨⟨v, x, hv, hx, huser, hpage, hgiven⟩, hr.valid _ (.inr ⟨v, .inl (List.mem_of_mem_head? hgiven)⟩)⟩
  rw [exec]
  split
  · exact fun _ he => absurd he List.not_mem_nil
  have hany : ∀ x : Outcome (Int × Kernel), x.Spec (fun _ => True) fun _ => True := ensures_true
  exact (execIn_spec hr hprog (fun _ _ => trivial) (fun ph hph => ⟨fun _ => trivial, fun hal => hph.resolve_left (not_not.mpr hal)⟩)
    (ensures_true _) (fun _ => trivial) (fun _ _ _ _ _ => hany _) fun _ _ _ _ _ _ _ _ _ _ => hany _).events

/-- The four bytes of a segment of one page go to the page that was allocated for it. -/
theorem exec_stores_own_segment : ∃ (fs : Fs) (e : Dest),
    e ∈ (exec (allocuvm ample) plain (before (fun _ => .zero) fs) [SLASH, 97] [[97]]).trace ∧ Own ample e ∧
    Valid (before (fun _ => .zero) fs).vm e.page := by
  obtain ⟨fs, fs₁, fs₂, fs₃, fs₄, fs₅, h⟩ := opens_of_run (segment 0 4 4) (by decide +kernel)
  obtain ⟨vm₁, d₁, rest, -, him, hexec, -⟩ := exec_reaches ample_ready (fun _ => List.cons_ne_nil _ _) (ample_tables _) h (by decide +kernel) (by decide +kernel) (show _ = 4 by decide +kernel) (by decide)
    (by decide) [[97]]
  have hvaddr : phVaddr (segment 0 4 4) = 0 := by decide +kernel
  have hfilesz : phFilesz (segment 0 4 4) = 4 := by decide +kernel
  have htable : d₁.table (0 / NPTENTRIES) ≠ none := him.table_ne (by decide)
  have htold : ∃ p, (⟨d₁, p⟩ : Dest) ∈ (exec (allocuvm ample) plain (before (fun _ => .zero) fs) [SLASH, 97] [[97]]).trace := by
    rw [hexec, hvaddr, hfilesz, loaduvm, if_neg (by decide), loaduvmFrom, if_pos (by decide)]
    have hpage : (0 + 0) % 2 ^ 32 / PGSIZE = 0 := by decide
    rw [hpage, walkpgdir_of_table htable]
    exact ⟨_, Traced.mem_bind (Traced.mem_bind (List.mem_singleton_self _) _) _⟩
  obtain ⟨p, hp⟩ := htold
  exact ⟨fs, ⟨d₁, p⟩, hp, exec_stores_own ample_ready [SLASH, 97] [[97]]
    (h.program ample_tables (.inr (.inr (show _ < 2 ^ 32 by decide +kernel)))) _ hp⟩

/-- A segment at the second page that goes around the end of the address space: the image gets one page, and the bytes
    of the file go to physical page 0. -/
theorem exec_stores_low : ∃ (fs : Fs) (e : Dest), Ready ample (before (fun _ => .zero) fs).vm ∧ (∀ sz, TablesMet ample sz) ∧
    e ∈ (exec (allocuvm ample) plain (before (fun _ => .zero) fs) [SLASH, 97] [[97]]).trace ∧ e.page = 0 ∧ ¬Own ample e ∧
    ¬Valid (before (fun _ => .zero) fs).vm e.page := by
  obtain ⟨fs, fs₁, fs₂, fs₃, fs₄, fs₅, h⟩ := opens_of_run (segment 0x1000 4 0xfffff001) (by decide +kernel)
  obtain ⟨vm₁, d₁, rest, -, him, hexec, -⟩ := exec_reaches ample_ready (fun _ => List.cons_ne_nil _ _) (ample_tables _) h (by decide +kernel) (by decide +kernel) (show _ = 1 by decide +kernel) (by decide)
    (by decide) [[97]]
  have hvaddr : phVaddr (segment 0x1000 4 0xfffff001) = 0x1000 := by decide +kernel
  have hfilesz : phFilesz (segment 0x1000 4 0xfffff001) = 4 := by decide +kernel
  have htable : d₁.table (1 / NPTENTRIES) ≠ none := him.table_ne (v := 0) (by decide)
  have hpte : d₁.pte 1 = none := him.rest 1 (by decide) (by decide)
  refine ⟨fs, ⟨d₁, 0⟩, ample_ready, ample_tables, ?_, rfl, ?_, ?_⟩
  · rw [hexec, hvaddr, hfilesz, loaduvm, if_neg (by decide), loaduvmFrom, if_pos (by decide)]
    have hpage : (0x1000 + 0) % 2 ^ 32 / PGSIZE = 1 := by decide
    rw [hpage, walkpgdir_of_table htable, hpte]
    exact Traced.mem_bind (Traced.mem_bind (List.mem_singleton_self _) _) _
  · rintro ⟨v, x, -, -, -, -, hgiven⟩
    have hzero : 2000 + 2 * (v % 4096) = 0 := Option.some.inj hgiven
    omega
  · rintro ⟨hlo, -⟩
    exact absurd hlo (show ¬500 ≤ 0 by decide)

/-! ### The stack -/

/-- Page `v` is the stack: the pages up to it have page tables, and so have those of the devices, which are out of reach. -/
structure Stacked (d : Pgdir) (v : Nat) : Prop extends StackTop d v where
  tables : ∀ u ≤ v, d.table (u / NPTENTRIES) ≠ none
  devices : ∀ u, DEVSPACE / PGSIZE ≤ u → u < 2 ^ 32 / PGSIZE → Guarded d u

theorem clearpteu_stacked (him : Image o d (v + 1)) (hpos : 0 < v) (hv : v < KERNPAGE) {va : Nat} (hva : va / PGSIZE = v - 1) (vm : Vm) :
    ∃ d', vm.clearpteu d va = .ok d' ∧ Stacked d' v ∧ Holds o d' v := by
  have htable : d.table ((v - 1) / NPTENTRIES) ≠ none := him.table_ne (by omega)
  have hclear : vm.clearpteu d va = .ok (setPte d (v - 1) ((d.pte (v - 1)).map fun e => { e with user := false })) := by
    rw [clearpteu, hva, walkpgdir_of_table htable]
  refine ⟨_, hclear, ⟨⟨hpos, hv, htable, fun e he => ?_⟩, fun u hu => him.table_ne (by omega), fun u hlo hhi => ?_⟩, ?_⟩
  · rw [pte_setPte_self] at he
    obtain ⟨x, -, rfl⟩ := Option.map_eq_some_iff.mp he
    rfl
  · have hkern : KERNPAGE ≤ u := by
      simp only [KERNPAGE, KERNBASE, DEVSPACE, PGSIZE] at *
      omega
    refine ⟨him.devices u hlo hhi, fun e he => ?_⟩
    rw [pte_setPte_of_ne d (by omega)] at he
    exact him.kernel u hkern e he
  · rw [Holds, pte_setPte_of_ne d (by omega)]
    exact him.mapped v (Nat.lt_succ_self v)

section Ends
variable (cur) (hP : ∀ p, P p → Valid vm₀ p) (hd : d.Built P)
include hP hd

theorem copyoutFrom_ends {n : Nat} (htab : ∀ u < n, d.table (u / NPTENTRIES) ≠ none) (hn : n ≤ KERNPAGE) :
    ∀ (left : Nat) {vm : Vm} (va : Nat) (bs : List UInt8), Pooled P P vm₀ vm → va + bs.length ≤ n * PGSIZE →
      ∃ ok vm', copyoutFrom cur d left vm va bs = .ok (ok, vm') ∧ Pooled P P vm₀ vm'
  | 0, vm, _, _, h, _ => ⟨true, vm, rfl, h⟩
  | left + 1, vm, va, bs, h, hlen => by
    rw [copyoutFrom]
    split
    · rename_i hpos
      have hpage : va / PGSIZE < n := by
        simp only [PGSIZE] at *
        omega
      rw [uva2ka, walkpgdir_of_table (htab _ hpage)]
      cases he : d.pte (va / PGSIZE) with
      | none => exact ⟨false, vm, rfl, h⟩
      | some e =>
        cases huser : e.user with
        | false => exact ⟨false, vm, by simp only [huser]; rfl, h⟩
        | true =>
          have heP : P e.page := (hd.user _ e he huser).1
          obtain ⟨vm₁, hwrite⟩ := write_ok vm (hP _ heP).2 (va % PGSIZE) (bs.take (min (PGSIZE - va % PGSIZE) bs.length))
          have h₁ : Pooled P P vm₀ vm₁ := (h.write heP _ _).of_eq_ok hwrite
          have hnext : (va / PGSIZE * PGSIZE + PGSIZE) % 2 ^ 32 + (bs.drop (min (PGSIZE - va % PGSIZE) bs.length)).length ≤ n * PGSIZE := by
            rw [List.length_drop]
            simp only [KERNPAGE, KERNBASE, PGSIZE] at *
            omega
          obtain ⟨ok, vm', hrest, h'⟩ := copyoutFrom_ends htab hn left _ _ h₁ hnext
          refine ⟨ok, vm', ?_, h'⟩
          simp only [huser, if_true, ok_bind, hwrite, hrest]
    · exact ⟨true, vm, rfl, h⟩

theorem copyout_ends (st : Stacked d v) (h : Pooled P P vm₀ vm) {sp : Nat} (hlo : v * PGSIZE ≤ sp) (hhi : sp ≤ v * PGSIZE + PGSIZE)
    {bs : List UInt8} (hlen : bs.length ≤ 2 ^ 32 - DEVSPACE) :
    ∃ ok vm', vm.copyout cur d (sub32 sp bs.length / 4 * 4) bs = .ok (ok, vm') ∧ Pooled P P vm₀ vm' := by
  have hv := st.high
  by_cases hfit : bs.length ≤ sp
  · refine copyoutFrom_ends cur hP hd (n := v + 1) (fun u hu => st.tables u (Nat.le_of_lt_succ hu)) hv _ _ _ h ?_
    unfold sub32
    simp only [KERNPAGE, KERNBASE, PGSIZE] at *
    omega
  · have hwrap : sub32 sp bs.length = sp + 2 ^ 32 - bs.length := by
      unfold sub32
      simp only [KERNPAGE, KERNBASE, DEVSPACE, PGSIZE] at *
      omega
    have hguard : Guarded d (sub32 sp bs.length / 4 * 4 / PGSIZE) := by
      rw [hwrap]
      apply st.devices
      · simp only [KERNPAGE, KERNBASE, DEVSPACE, PGSIZE] at *
        omega
      · simp only [KERNPAGE, KERNBASE, DEVSPACE, PGSIZE] at *
        omega
    exact ⟨false, vm, copyout_guarded hguard (List.ne_nil_of_length_pos (by omega)), h⟩

theorem pushArgs_ends (st : Stacked d v) : ∀ (argv : List (List UInt8)) {vm : Vm} {sp : Nat} (addrs : List Nat), Pooled P P vm₀ vm →
    v * PGSIZE ≤ sp → sp ≤ v * PGSIZE + PGSIZE → sp % 4 = 0 → (∀ arg ∈ argv, arg.length + 1 ≤ 2 ^ 32 - DEVSPACE) →
    ∃ pushed vm', pushArgs cur d argv vm sp addrs = .ok (pushed, vm') ∧ Pooled P P vm₀ vm'
  | [], vm, sp, addrs, h, _, _, _, _ => ⟨some (sp, addrs), vm, rfl, h⟩
  | arg :: argv, vm, sp, addrs, h, hlo, hhi, h4, hargs => by
    rw [pushArgs]
    split
    · exact ⟨none, vm, rfl, h⟩
    have hlen : (arg ++ [0]).length = arg.length + 1 := List.length_append
    obtain ⟨ok, vm₁, hcopy, h₁⟩ := copyout_ends cur hP hd st h hlo hhi (hlen ▸ hargs arg List.mem_cons_self)
    have hcopied := (copyout_copied cur vm st.toStackTop (arg ++ [0]) (by simp) hlo hhi h4).of_eq_ok hcopy
    rw [hlen] at hcopy hcopied
    dsimp only
    rw [hcopy, ok_bind]
    cases ok with
    | false => exact ⟨none, vm₁, rfl, h₁⟩
    | true =>
      have hfit := (hcopied rfl).1
      have hsp := sub32_of_fits st.high (hlen.symm ▸ hfit) hhi h4
      rw [hlen] at hsp
      rw [hsp]
      exact pushArgs_ends st argv _ h₁ (Nat.le_sub_of_add_le hfit) ((Nat.sub_le _ _).trans hhi) (by omega) fun a ha =>
        hargs a (List.mem_cons_of_mem _ ha)

end Ends

/-- The system call is back, with 0 or -1. -/
def Returned (r : Int × Kernel) : Prop := r.1 = 0 ∨ r.1 = -1

section Returns
variable {path : List UInt8} {argv : List (List UInt8)} {entry : Nat} (hP : ∀ p, P p → Valid vm₀ p) (hkend : 0 < vm₀.kend)
include hP hkend

theorem bad_returns (h : Pooled P P vm₀ k.vm) (hd : d.Owns P) : (k.bad (some d) none).Spec Returned fun _ => False := by
  have hvalid : ∀ p, P p → Valid k.vm p := fun p hp => by
    rw [Valid, h.kend]
    exact hP p hp
  obtain ⟨vm', hfree⟩ := freevm_ok (h.kend ▸ hkend) (owns_mono hd hvalid)
  rw [Kernel.bad]
  dsimp only
  rw [hfree]
  exact .inr rfl

theorem start_returns (hcur : cur.Owns (Valid vm₀)) (hd : d.Built P) (st : Stacked d v) (hargs : ∀ arg ∈ argv, arg.length + 1 ≤ 2 ^ 32 - DEVSPACE)
    (h : Pooled P P vm₀ k.vm) {sp : Nat} (hlo : v * PGSIZE ≤ sp) (hhi : sp ≤ v * PGSIZE + PGSIZE) (h4 : sp % 4 = 0) (sz ret : Nat) :
    (start k cur d sz ret sp entry path argv).Spec Returned fun _ => False := by
  rw [start]
  obtain ⟨pushed, vm₁, hpush, h₁⟩ := pushArgs_ends cur hP hd st argv [] h hlo hhi h4 hargs
  rw [hpush, ok_bind]
  cases pushed with
  | none => exact bad_returns hP hkend h₁ hd.toOwns
  | some pushed =>
  obtain ⟨sp₁, addrs⟩ := pushed
  obtain ⟨new, -, -, hmany, page, hlaid, -⟩ :=
    (pushArgs_laid cur st.toStackTop argv [] (.nil k.vm d hlo hhi h4)).of_eq_ok hpush _ _ rfl
  have hwords := length_ustack ret sp₁ addrs
  have hbound : ((ustack ret sp₁ addrs).flatMap (toLe 4)).length ≤ 2 ^ 32 - DEVSPACE := by
    rw [hwords]
    simp only [DEVSPACE, MAXARG, List.length_nil] at *
    omega
  obtain ⟨ok, vm₂, hcopy, h₂⟩ := copyout_ends cur hP hd st h₁ hlaid.low hlaid.high hbound
  rw [hwords, sub32_aligned hlaid.aligned (by omega)] at hcopy
  dsimp only
  rw [hcopy, ok_bind]
  cases ok with
  | false => exact bad_returns hP hkend h₂ hd.toOwns
  | true =>
    have hvalid : ∀ p, Valid vm₀ p → Valid vm₂ p := fun p hp => by
      rw [Valid, h₂.kend]
      exact hp
    obtain ⟨vm₃, hfree⟩ := freevm_ok (h₂.kend ▸ hkend) (owns_mono hcur hvalid)
    dsimp only
    rw [if_neg (by decide), hfree]
    exact .inl rfl

theorem stackOn_returns (hcur : cur.Owns (Valid vm₀)) (hcode : b.sigreturnCode.length ≤ 2 ^ 32 - DEVSPACE)
    (hargs : ∀ arg ∈ argv, arg.length + 1 ≤ 2 ^ 32 - DEVSPACE) (hb : Building P P vm₀ k.vm d) (him : Image o d (v + 1)) (hpos : 0 < v)
    (hv : v < KERNPAGE) : (stackOn b k cur d (v * PGSIZE + PGSIZE) entry path argv).Spec Returned fun _ => False := by
  obtain ⟨hguard, hret, h4⟩ := stack_top hpos hv
  rw [stackOn]
  obtain ⟨d₁, hclear, st, -⟩ := clearpteu_stacked him hpos hv hguard k.vm
  have hd₁ : d₁.Built P := (hb.clearpteu.of_eq_ok hclear).built
  rw [hclear, ok_bind, hret]
  obtain ⟨ok, vm₁, hcopy, h₁⟩ := copyout_ends cur hP hd₁ st hb.toPooled (Nat.le_add_right _ _) le_rfl
    (show exitCode.length ≤ _ by decide)
  rw [hret, Nat.div_mul_cancel (Nat.dvd_of_mod_eq_zero h4)] at hcopy
  dsimp only
  rw [hcopy, ok_bind]
  cases ok with
  | false => exact bad_returns hP hkend h₁ hd₁.toOwns
  | true =>
  dsimp only
  rw [if_neg (by decide)]
  have hlo : v * PGSIZE ≤ v * PGSIZE + PGSIZE - 8 := by
    simp only [PGSIZE]
    omega
  obtain ⟨ok, vm₂, hcopy₂, h₂⟩ := copyout_ends cur hP hd₁ st h₁ hlo (Nat.sub_le _ _) hcode
  have hcopied := (copyout_copied cur vm₁ st.toStackTop b.sigreturnCode b.code_ne hlo (Nat.sub_le _ _) h4).of_eq_ok hcopy₂
  rw [hcopy₂, ok_bind]
  cases ok with
  | false => exact bad_returns hP hkend h₂ hd₁.toOwns
  | true =>
    have hfit := (hcopied rfl).1
    dsimp only
    rw [if_neg (by decide), sub32_of_fits hv hfit (Nat.sub_le _ _) h4]
    exact start_returns hP hkend hcur hd₁ st hargs h₂ (Nat.le_sub_of_add_le hfit) ((Nat.sub_le _ _).trans (Nat.sub_le _ _)) (by omega) _ _

theorem stack_cases (hfinds : Finds o P) (hb : Building P P vm₀ k.vm d) {sz : Nat} (him : Image o d (pgroundup sz / PGSIZE))
    (hsz : sz < KERNBASE) (htab : TablesMet o ((pgroundup sz + 2 * PGSIZE) % 2 ^ 32)) {res : Outcome (Int × Kernel)} (hrun : stack (allocuvm o) b k cur d sz entry path argv = res) :
    ∃ vm₁ d₁, Building P P vm₀ vm₁ d₁ ∧ (Kernel.bad { k with vm := vm₁ } (some d₁) none = res ∧
        ((pgroundup sz + 2 * PGSIZE) % 2 ^ 32 < KERNBASE → ∃ v, o.page v = []) ∨
      ∃ v, 0 < v ∧ v < KERNPAGE ∧ Image o d₁ (v + 1) ∧ stackOn b { k with vm := vm₁ } cur d₁ (v * PGSIZE + PGSIZE) entry path argv = res) := by
  have hround : pgroundup (pgroundup sz) = pgroundup sz := by
    simp only [pgroundup, KERNBASE, PGSIZE] at *
    omega
  rw [stack] at hrun
  dsimp only at hrun
  generalize hnew : (pgroundup sz + 2 * PGSIZE) % 2 ^ 32 = newsz at hrun htab
  obtain ⟨r, vm₁, d₁, halloc, hb₁, hres⟩ := allocuvm_image hP hkend hfinds hb (hround.symm ▸ him) htab
  rw [halloc, ok_bind] at hrun
  refine ⟨vm₁, d₁, hb₁, ?_⟩
  dsimp only at hrun
  split at hrun
  · rename_i hzero
    refine .inl ⟨hrun, fun hlt => ?_⟩
    rcases hres with ⟨-, hmax, -⟩ | ⟨-, hnone⟩
    · simp only [pgroundup, KERNBASE, PGSIZE] at *
      omega
    · exact hnone hlt
  rename_i hne
  obtain ⟨hbase, hmax, him₁⟩ := hres.resolve_right fun h => hne h.1
  obtain ⟨v, hpos, hv, hr⟩ := sized_stack hsz (hnew ▸ .inr ⟨hbase, hmax⟩) hne
  rw [hr] at hrun him₁
  have hpages : pgroundup (v * PGSIZE + PGSIZE) / PGSIZE = v + 1 := by
    simp only [pgroundup, KERNPAGE, KERNBASE, PGSIZE] at *
    omega
  exact .inr ⟨v, hpos, hv, hpages ▸ him₁, hrun⟩

end Returns

/-! ### No assertion fails -/

theorem before_owns {m : Nat → Page} {fs : Fs} : Kernel.onePage.Owns (Valid (before m fs).vm) :=
  onePage_owns (show 500 ≤ 600 ∧ _ by decide) (show 500 ≤ 601 ∧ _ by decide) (show 500 ≤ 602 ∧ _ by decide)

end Loader
end Xv6
