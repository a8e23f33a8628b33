import Xv6.Loader
import Xv6.Theorems.Exec
import Xv6.Theorems.VmRoom

/-! `exec` is all or nothing unless its arguments do not fit on the stack. -/

namespace Xv6
open Outcome (ok_bind)
open Bytes

namespace Kernel
variable {b : Build} {k k' : Kernel} {d cur : Pgdir} {path : List UInt8} {argv : List (List UInt8)}

/-- No page of the process is free, or page 0 of the machine. -/
def OwnPages (k : Kernel) : Prop :=
  ∀ cur v e, k.proc.pgdir = some cur → cur.pte v = some e → v < KERNPAGE → e.page ≠ 0 ∧ e.page ∉ k.vm.free

/-- The word at address 0 of the process, taken for a page table entry, is not one of a user page. -/
def NullWord (k : Kernel) : Prop :=
  ∀ cur e, k.proc.pgdir = some cur → cur.pte 0 = some e →
    (k.vm.mem e.page).word 4 0 % 2 = 0 ∨ (k.vm.mem e.page).word 4 0 / 4 % 2 = 0

theorem exists_not_free (free : List Nat) : ¬∀ q, q = 0 ∨ q ∈ free := fun h => by
  have hfin : (Set.univ : Set Nat).Finite := ((0 :: free).finite_toSet).subset fun q _ => by
    rcases h q with rfl | hq
    · exact List.mem_cons_self
    · exact List.mem_cons_of_mem 0 hq
  exact Set.infinite_univ hfin

/-- As far as `exec` gets: no segment with contents wraps around the end of the address space, the word at address 0 does
    no harm when there is a stack, and the arguments fit when they are copied there. -/
def Loadable (b : Build) (k : Kernel) (path : List UInt8) (argv : List (List UInt8)) : Prop :=
  ∀ cur, k.proc.pgdir = some cur → Program Straight (fun _ => True)
    (fun vm d sz => k.NullWord ∧ (CopiesCode b cur vm d sz → ArgsFit b argv)) Vm.allocuvm b k path

def elfHeader : List UInt8 := [0x7f, 0x45, 0x4c, 0x46] ++ List.replicate 48 0

/-- A machine without devices, with the code that the compiler makes of `_sigreturn`. -/
def plain : Build where
  devsw := ⟨fun _ => none, fun _ => none⟩
  sigreturnCode := [0x55, 0x89, 0xe5, 0xb8, 27, 0, 0, 0, 0xcd, 0x40, 0x5d, 0xc3, 0x55]
  code_ne := by decide
  elf := []
  ph := []

/-- A disk with a root directory and the file `/a`. -/
def elfDisk : Outcome Fs :=
  Machine.runList (Fs.step plain.devsw) Fs.blank
    [.ialloc 1, .ialloc 2, .ilock 0, .ilock 1, .setLinks 0 0 0 1, .setLinks 1 0 0 1,
      .writei 1 (fun j => elfHeader.getD j 0) 0 52, .dirlink 0 (fun j => [97].getD j 0) 2, .iunlock 0, .iunlock 1, .iput 0,
      .iput 1]

structure OpensElf (fs fs₁ fs₂ fs₃ fs₄ : Fs) : Prop where
  namei : fs.namei plain.devsw none [SLASH, 97] = .ok (some 1, fs₁)
  ilock : fs₁.ilock 1 = .ok fs₂
  readi : fs₂.readi plain.devsw 1 0 (.ofNat ELFHDR) = .ok (52, elfHeader, fs₃)
  close : fs₃.iunlockput 1 = .ok fs₄

theorem elfDisk_opens : ∃ fs fs₁ fs₂ fs₃ fs₄, OpensElf fs fs₁ fs₂ fs₃ fs₄ := by
  obtain ⟨fs, -, ⟨_, fs₁⟩, hnamei, rfl, fs₂, hilock, ⟨_, _, fs₃⟩, hreadi, rfl, rfl, fs₄, hclose⟩ : ∃ fs, elfDisk = .ok fs ∧
      ∃ r, fs.namei plain.devsw none [SLASH, 97] = .ok r ∧ r.1 = some 1 ∧ ∃ fs₂, r.2.ilock 1 = .ok fs₂ ∧
      ∃ x, fs₂.readi plain.devsw 1 0 (.ofNat ELFHDR) = .ok x ∧ x.1 = 52 ∧ x.2.1 = elfHeader ∧ ∃ fs₄, x.2.2.iunlockput 1 = .ok fs₄ := by
    decide +kernel
  exact ⟨fs, fs₁, fs₂, fs₃, fs₄, hnamei, hilock, hreadi, hclose⟩

def onePage : Pgdir where
  dir := 600
  table i := if i = 0 then some 601 else none
  pte v := if v = 0 then some ⟨602, true, true⟩ else none

def caller (fs : Fs) (free : List Nat) : Kernel where
  fs := fs
  outstanding := 0
  vm := { mem := fun _ => .zero, free := free, data := 300, kend := 500 }
  proc := { sz := PGSIZE, pgdir := some onePage }

variable {fs fs₁ fs₂ fs₃ fs₄ : Fs} {free : List Nat}

theorem exec_opensElf (free : List Nat) (h : OpensElf fs fs₁ fs₂ fs₃ fs₄) (argv : List (List UInt8)) {vm : Vm} {pgdir : Option Pgdir}
    (hset : (caller fs free).vm.setupkvm = .ok (pgdir, vm)) :
    (caller fs free).exec plain [SLASH, 97] argv = (match pgdir with
      | none => .ok (-1, { caller fs₄ free with vm := vm })
      | some d => stack plain { caller fs₄ free with vm := vm } onePage d 0 0 [SLASH, 97] argv) := by
  have hmagic : elfMagic (fill plain.elf elfHeader) = ELF_MAGIC := by decide +kernel
  have hphnum : elfPhnum (fill plain.elf elfHeader) = 0 := by decide +kernel
  have hentry : elfEntry (fill plain.elf elfHeader) = 0 := by decide +kernel
  have hnamei : (caller fs free).beginOp.fs.namei plain.devsw (caller fs free).beginOp.proc.cwd [SLASH, 97] = .ok (some 1, fs₁) :=
    h.namei
  show execIn plain (caller fs free) onePage [SLASH, 97] argv = _
  unfold execIn
  dsimp only
  rw [hnamei, ok_bind]
  dsimp only
  rw [h.ilock, ok_bind, h.readi, ok_bind]
  dsimp only
  rw [if_neg (by decide), hmagic, if_neg (by decide)]
  have hset' : (caller fs free).beginOp.vm.setupkvm = .ok (pgdir, vm) := hset
  rw [hset', ok_bind]
  cases pgdir with
  | none =>
    dsimp only
    simp only [bad, h.close, ok_bind, Outcome.pure_eq]
    rfl
  | some d =>
    dsimp only
    rw [hphnum, load, ok_bind]
    dsimp only
    rw [h.close, ok_bind, hentry]
    rfl

theorem caller_ownPages (hfree : 602 ∉ free) : (caller fs free).OwnPages := by
  rintro cur v e hcur he -
  cases hcur
  unfold onePage at he
  dsimp only at he
  split at he
  · cases he
    exact ⟨by decide, hfree⟩
  · cases he

theorem caller_nullWord : (caller fs free).NullWord := by
  rintro cur e hcur he
  exact Or.inl (by rw [show (caller fs free).vm.mem e.page = .zero from rfl, Buffer.word_zero])

theorem Program.of_opens {Q : List UInt8 → Prop} {R : Nat → Prop} {S : Vm → Pgdir → Nat → Prop} {alloc : Vm.Alloc} {b : Build} {k : Kernel}
    {path : List UInt8} {i : InodeIdx} {r : Int} {bs : List UInt8} (hnamei : k.fs.namei b.devsw k.proc.cwd path = .ok (some i, fs₁))
    (hilock : fs₁.ilock i = .ok fs₂) (hreadi : fs₂.readi b.devsw i 0 (.ofNat ELFHDR) = .ok (r, bs, fs₃))
    (h : ∀ d vm, Segments Q R S alloc b i (elfPhnum (fill b.elf bs)) { k.beginOp with fs := fs₃, vm := vm } d 0
      (.ofNat (elfPhoff (fill b.elf bs))) b.ph) : Program Q R S alloc b k path := by
  intro ip gs₁ gs₂ r' bs' gs₃ d vm hnamei' hilock' hreadi' _ _ _
  obtain ⟨⟩ := hnamei.symm.trans hnamei'
  obtain ⟨⟩ := hilock.symm.trans hilock'
  obtain ⟨⟩ := hreadi.symm.trans hreadi'
  exact h d vm

theorem caller_program {Q : List UInt8 → Prop} {R : Nat → Prop} {S : Vm → Pgdir → Nat → Prop} {alloc : Vm.Alloc}
    (h : OpensElf fs fs₁ fs₂ fs₃ fs₄) (hS : ∀ vm d, S vm d 0) :
    Program Q R S alloc plain (caller fs free) [SLASH, 97] := by
  refine .of_opens h.namei h.ilock h.readi fun d vm => ?_
  have hphnum : elfPhnum (fill plain.elf elfHeader) = 0 := by decide +kernel
  rw [hphnum]
  exact hS vm d

section Looks
variable {vm : Vm} {v q : Nat}

/-- Page `v` of `d` is found to be physical page `q`, as long as the first word of `q` stays. -/
def Looks (cur d : Pgdir) (v q : Nat) (vm : Vm) : Prop :=
  ∀ vm' : Vm, (∀ p, p ≠ q → vm'.mem p = vm.mem p) → (vm'.mem q).word 4 0 = (vm.mem q).word 4 0 → vm'.uva2ka cur d v = .ok (some q)

theorem copyout_looks (h : Looks cur d v q vm) (hq : q < PHYSTOP / PGSIZE) {off : Nat} {bs : List UInt8} (hoff : 4 ≤ off) (hne : bs ≠ [])
    (hfit : off + bs.length ≤ PGSIZE) :
    ∃ vm', vm.copyout cur d (v * PGSIZE + off) bs = .ok (true, vm') ∧ Looks cur d v q vm' ∧ vm'.kend = vm.kend := by
  have hlen : 0 < bs.length := List.length_pos_iff.mpr hne
  have hpage : (v * PGSIZE + off) / PGSIZE = v := by
    simp only [PGSIZE] at *
    omega
  have hmod : (v * PGSIZE + off) % PGSIZE = off := by
    simp only [PGSIZE] at *
    omega
  have hwrite : vm.write q off bs = .ok { vm with mem := Function.update vm.mem q ((vm.mem q).setBytes off bs) } :=
    if_neg (Nat.not_le.mpr hq)
  have hfound : vm.uva2ka cur d ((v * PGSIZE + off) / PGSIZE) = .ok (some q) := hpage.symm ▸ h vm (fun _ _ => rfl) rfl
  refine ⟨{ vm with mem := Function.update vm.mem q ((vm.mem q).setBytes off bs) }, ?_, fun vm₁ hsame hword => h vm₁ (fun p hp => ?_) ?_, rfl⟩
  · rw [Vm.copyout_found hfound hne (hmod.symm ▸ hfit), hmod, hwrite, ok_bind]
  · rw [hsame p hp]
    exact Function.update_of_ne hp ..
  · rw [hword]
    dsimp only
    rw [Function.update_self, Buffer.word_setBytes_disjoint _ (.inl hoff)]

theorem stackOn_starts {k : Kernel} {d₁ : Pgdir} (hv : v < KERNPAGE)
    (hclear : k.vm.clearpteu d (sub32 (v * PGSIZE + PGSIZE) (2 * PGSIZE)) = .ok d₁) (hlook : Looks cur d₁ v q k.vm)
    (hq : q < PHYSTOP / PGSIZE) :
    ∃ vm', Looks cur d₁ v q vm' ∧ vm'.kend = k.vm.kend ∧ ∀ entry path argv,
      Loader.stackOn plain k cur d (v * PGSIZE + PGSIZE) entry path argv =
        start { k with vm := vm', proc := { k.proc with retAdd := .ofNat (v * PGSIZE + 4072) } } cur d₁ (v * PGSIZE + PGSIZE)
          (v * PGSIZE + 4088) (v * PGSIZE + 4072) entry path argv := by
  have hret : sub32 (v * PGSIZE + PGSIZE) exitCode.length = v * PGSIZE + 4088 := by
    unfold sub32
    simp only [KERNPAGE, KERNBASE, PGSIZE, exitCode, List.length_cons, List.length_nil] at *
    omega
  have hsp : sub32 (v * PGSIZE + 4088) plain.sigreturnCode.length / 4 * 4 = v * PGSIZE + 4072 := by
    unfold sub32
    simp only [KERNPAGE, KERNBASE, PGSIZE, plain, List.length_cons, List.length_nil] at *
    omega
  obtain ⟨vm₁, hcopy₁, hlook₁, hkend₁⟩ := copyout_looks hlook hq (show 4 ≤ 4088 by decide) (show exitCode ≠ [] by decide) (by decide)
  obtain ⟨vm₂, hcopy₂, hlook₂, hkend₂⟩ := copyout_looks hlook₁ hq (show 4 ≤ 4072 by decide) plain.code_ne (by decide)
  refine ⟨vm₂, hlook₂, hkend₂.trans hkend₁, fun entry path argv => ?_⟩
  rw [Loader.stackOn, hclear, ok_bind, hret]
  dsimp only
  rw [hcopy₁, ok_bind]
  dsimp only
  rw [if_neg (by decide), hsp, hcopy₂, ok_bind]
  dsimp only
  rw [if_neg (by decide)]

theorem start_runs {k : Kernel} (hv : v < KERNPAGE) (hlook : Looks cur d v q k.vm) (hq : q < PHYSTOP / PGSIZE) (hkend : 0 < k.vm.kend)
    (hcur : cur.Owns k.vm.Valid) (sz entry : Nat) (path : List UInt8) :
    ∃ k', start k cur d sz (v * PGSIZE + 4088) (v * PGSIZE + 4072) entry path [[97]] = .ok (0, k') ∧ k'.proc.pgdir = some d ∧
      k'.proc.sz = sz ∧ k'.proc.tf.esp = .ofNat (v * PGSIZE + 4048) := by
  have harg : sub32 (v * PGSIZE + 4072) 2 / 4 * 4 = v * PGSIZE + 4068 := by
    unfold sub32
    simp only [KERNPAGE, KERNBASE, PGSIZE] at *
    omega
  have hesp : sub32 (v * PGSIZE + 4068) 20 = v * PGSIZE + 4048 := by
    unfold sub32
    simp only [KERNPAGE, KERNBASE, PGSIZE] at *
    omega
  obtain ⟨vm₁, hcopy₁, hlook₁, hkend₁⟩ := copyout_looks hlook hq (show 4 ≤ 4068 by decide) (show [97] ++ [0] ≠ [] by decide) (by decide)
  have hwords : ((ustack (v * PGSIZE + 4088) (v * PGSIZE + 4068) [v * PGSIZE + 4068]).flatMap (toLe 4)).length = 20 := length_ustack ..
  obtain ⟨vm₂, hcopy₂, -, hkend₂⟩ := copyout_looks hlook₁ hq (show 4 ≤ 4048 by decide)
    (ustack_ne_nil (v * PGSIZE + 4088) (v * PGSIZE + 4068) [v * PGSIZE + 4068]) (by rw [hwords]; decide)
  have hsame : k.vm.Valid = vm₂.Valid := funext fun p => by rw [Vm.Valid, Vm.Valid, hkend₂, hkend₁]
  obtain ⟨vm₃, hfree⟩ := Vm.freevm_ok ((hkend₂.trans hkend₁).symm ▸ hkend) (hsame ▸ hcur)
  have hpush : pushArgs cur d [[97]] k.vm (v * PGSIZE + 4072) [] = .ok (some (v * PGSIZE + 4068, [v * PGSIZE + 4068]), vm₁) := by
    rw [pushArgs, if_neg (by decide)]
    dsimp only
    rw [show ([97] : List UInt8).length + 1 = 2 from rfl, harg, hcopy₁]
    rfl
  rw [start, hpush, ok_bind]
  dsimp only
  rw [show (3 + [v * PGSIZE + 4068].length + 1) * 4 = 20 from rfl, hesp, hcopy₂, ok_bind]
  dsimp only
  rw [if_neg (by decide), hfree, ok_bind]
  exact ⟨_, rfl, rfl, rfl, rfl⟩

end Looks

/-! ### Arguments that do not fit -/

theorem stack_reaches {k : Kernel} (hd : Vm.Building k.vm.Valid (fun _ => True) k.vm k.vm d) (hroom : Vm.Room 2 k.vm d)
    (hlow : ∀ u < KERNPAGE, d.pte u = none) :
    ∃ vm₁ d₁ q, StackPage d₁ 1 q ∧ q < PHYSTOP / PGSIZE ∧ vm₁.kend = k.vm.kend ∧ d₁.Owns k.vm.Valid ∧
      ∀ entry path argv, stack plain k cur d 0 entry path argv =
        start { k with vm := vm₁, proc := { k.proc with retAdd := 8168 } } cur d₁ 8192 8184 8168 entry path argv := by
  obtain ⟨vm₁, d₁, halloc, hroom₁, -, hmapped⟩ := Vm.Room.allocuvm 0 8192 (n := 0) (by decide) (by decide) (by decide) hroom
    fun u _ hu => hlow u (by simp only [KERNPAGE, KERNBASE, PGSIZE] at *; omega)
  obtain ⟨g, hg⟩ := hmapped 0 (by decide) (by decide)
  obtain ⟨q, hq⟩ := hmapped 1 (by decide) (by decide)
  have hb₁ : Vm.Building k.vm.Valid (fun _ => True) k.vm vm₁ d₁ := ((hd.allocuvm fun _ _ => trivial).of_eq_ok halloc).1
  have hclear : vm₁.clearpteu d₁ (sub32 (1 * PGSIZE + PGSIZE) (2 * PGSIZE)) = .ok (Vm.setPte d₁ 0 (some ⟨g, true, false⟩)) := by
    have ht : d₁.table (0 / NPTENTRIES) ≠ none := hroom₁.table_ne hg
    have h0 : sub32 (1 * PGSIZE + PGSIZE) (2 * PGSIZE) / PGSIZE = 0 := by decide
    rw [Vm.clearpteu, h0, Vm.walkpgdir_of_table ht, hg]
    rfl
  generalize hd₂ : Vm.setPte d₁ 0 (some ⟨g, true, false⟩) = d₂ at hclear
  have st : StackPage d₂ 1 q := by
    subst hd₂
    refine ⟨by decide, by decide, ⟨hroom₁.table_ne hg, fun e he => ?_⟩, hroom₁.table_ne hq,
      ⟨q, true, true⟩, (Vm.pte_setPte_of_ne d₁ (by decide) _).trans hq, rfl, rfl⟩
    rw [Vm.pte_setPte_self] at he
    cases he
    rfl
  have hvalid : q < PHYSTOP / PGSIZE := (hb₁.built.user 1 _ hq rfl).1.2
  obtain ⟨vm₂, -, hkend, hstack⟩ := @stackOn_starts d₁ cur 1 q { k with vm := vm₁ } d₂ (by decide) hclear
    (fun _ _ _ => Vm.uva2ka_of_maps st.maps) hvalid
  refine ⟨vm₂, d₂, q, st, hvalid, hkend.trans hb₁.kend, (hb₁.clearpteu.of_eq_ok hclear).built.toOwns, fun entry path argv => ?_⟩
  have hup : pgroundup 0 = 0 := by decide
  have hnew : (0 + 2 * PGSIZE) % 2 ^ 32 = 8192 := by decide
  unfold stack
  dsimp only
  rw [hup, hnew, halloc, ok_bind]
  dsimp only
  rw [if_neg (by decide)]
  exact hstack entry path argv

/-- The image is built up to the arguments, in a machine with enough free pages. -/
structure AtStart (fs fs₄ : Fs) (free : List Nat) (vm : Vm) (d : Pgdir) (q : Nat) : Prop where
  opens : ∃ fs₁ fs₂ fs₃, OpensElf fs fs₁ fs₂ fs₃ fs₄
  high : ∀ p ∈ free, 1000 ≤ p
  stack : StackPage d 1 q
  page : q < PHYSTOP / PGSIZE
  kend : vm.kend = 500
  owns : d.Owns vm.Valid
  exec : ∀ argv, (caller fs free).exec plain [SLASH, 97] argv =
    start { caller fs₄ free with vm := vm, proc := { (caller fs₄ free).proc with retAdd := 8168 } } onePage d 8192 8184 8168 0
      [SLASH, 97] argv

theorem exec_atStart : ∃ fs fs₄ free vm d q, AtStart fs fs₄ free vm d q := by
  obtain ⟨fs, fs₁, fs₂, fs₃, fs₄, h⟩ := elfDisk_opens
  have hfree : ∀ p ∈ List.range' 1000 1100, 1000 ≤ p ∧ p < 2100 := fun p hp => List.mem_range'_1.mp hp
  have hlen : NPTENTRIES + 1 + 2 ≤ (List.range' 1000 1100).length := by
    rw [List.length_range']
    decide
  generalize List.range' 1000 1100 = free at hfree hlen
  obtain ⟨d, vm, hset, hroom, hlow, -⟩ := Vm.setupkvm_room (n := 2) (caller fs free).vm hlen
    (show EXTMEM / PGSIZE ≤ 300 by decide) (show 300 ≤ PHYSTOP / PGSIZE by decide)
  have hvalid : ∀ p ∈ free, (caller fs free).vm.Valid p := fun p hp =>
    ⟨le_trans (show 500 ≤ 1000 by decide) (hfree p hp).1, lt_trans (hfree p hp).2 (by decide)⟩
  obtain ⟨hpool, hbuild⟩ := (Vm.Pooled.setupkvm (W := fun _ => True) (Vm.Pooled.start hvalid)).of_eq_ok hset
  have hsame : (caller fs free).vm.Valid = vm.Valid := funext fun p => by rw [Vm.Valid, Vm.Valid, hpool.kend]
  have hd : Vm.Building vm.Valid (fun _ => True) vm vm d :=
    { Vm.Pooled.start (hsame ▸ hpool.free) with built := hsame ▸ (hbuild d rfl).built }
  obtain ⟨vm₁, d₁, q, st, hq, hkend, howns, hstack⟩ :=
    @stack_reaches d onePage { caller fs₄ free with vm := vm } hd hroom hlow
  have hsame₁ : vm.Valid = vm₁.Valid := funext fun p => by rw [Vm.Valid, Vm.Valid, hkend]
  exact ⟨fs, fs₄, free, vm₁, d₁, q, ⟨fs₁, fs₂, fs₃, h⟩, fun p hp => (hfree p hp).1, st, hq, hkend.trans hpool.kend,
    hsame₁ ▸ howns, fun argv => (exec_opensElf free h argv hset).trans (hstack 0 [SLASH, 97] argv)⟩

theorem pushArgs_guarded {sp : Nat} {arg : List UInt8} (vm : Vm)
    (hg : Vm.Guarded d (sub32 sp (arg.length + 1) / 4 * 4 / PGSIZE)) :
    pushArgs cur d (arg :: argv) vm sp [] = .ok (none, vm) := by
  rw [pushArgs, if_neg (by decide)]
  dsimp only
  rw [Vm.copyout_guarded hg (by simp), ok_bind]
  rfl

theorem start_guarded {k : Kernel} {q sz ret sp entry : Nat} {arg : List UInt8} (st : StackPage d 1 q) (hkend : 0 < k.vm.kend)
    (hd : d.Owns k.vm.Valid) (hpage : sub32 sp (arg.length + 1) / 4 * 4 / PGSIZE = 0) :
    ∃ vm, start k cur d sz ret sp entry path (arg :: argv) = .ok (-1, { k with vm := vm }) := by
  obtain ⟨vm, hvm⟩ := Vm.freevm_ok hkend hd
  refine ⟨vm, ?_⟩
  rw [start, pushArgs_guarded k.vm (hpage.symm ▸ st.guard), ok_bind]
  dsimp only
  rw [bad]
  dsimp only
  rw [hvm, ok_bind]
  rfl

end Kernel
end Xv6
