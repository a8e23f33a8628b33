import Xv6.Exec
import Xv6.Theorems.Vm

/-! `exec` gives back all that it takes, and builds a new image in pages that were free. -/

namespace Xv6
open Bytes
open Outcome (ensures_iff ensures_true ok_bind)

namespace Kernel
variable {b : Build} {P W : Nat → Prop} {k k₀ : Kernel} {d cur : Pgdir} {ip : InodeIdx} {refs locks : List InodeIdx}
  {ops : Nat} {p : Proc}

/-- `exec` is under way since `k₀`: what it holds, what it may have written, and the process as it is now. -/
structure During (P W : Nat → Prop) (k₀ k : Kernel) (refs locks : List InodeIdx) (ops : Nat) (p : Proc) : Prop where
  holds : k₀.fs.Holding k.fs refs locks
  ops : k.outstanding = k₀.outstanding + ops
  vm : k₀.vm.Pooled P W k.vm
  proc : k.proc = p

theorem During.setVm {vm : Vm} (h : During P W k₀ k refs locks ops p) (hvm : k₀.vm.Pooled P W vm) :
    During P W k₀ { k with vm := vm } refs locks ops p := ⟨h.holds, h.ops, hvm, h.proc⟩

theorem During.setFs {fs : Fs} {refs' locks' : List InodeIdx} (h : During P W k₀ k refs locks ops p)
    (hfs : k₀.fs.Holding fs refs' locks') : During P W k₀ { k with fs := fs } refs' locks' ops p :=
  ⟨hfs, h.ops, h.vm, h.proc⟩

abbrev Done (P W : Nat → Prop) (k₀ k : Kernel) (p : Proc) : Prop := During P W k₀ k [] [] 0 p

theorem During.endOp (h : During P W k₀ k refs locks 1 p) : During P W k₀ k.endOp refs locks 0 p :=
  ⟨h.holds, by simp [Kernel.endOp, h.ops], h.vm, h.proc⟩

/-! ### Failures -/

theorem bad_fails (k : Kernel) (pgdir : Option Pgdir) (ip : Option InodeIdx) : (k.bad pgdir ip).Ensures fun r => r.1 ≠ 0 := by
  unfold bad
  cases ip with
  | none =>
    cases pgdir with
    | none => exact fun h => by cases h
    | some d => exact (ensures_true _).bind fun _ _ h => by cases h
  | some ip =>
    cases pgdir with
    | none | some d => exact (ensures_true _).bind fun _ _ => (ensures_true _).bind fun _ _ h => by cases h

theorem During.bad (hPW : ∀ q, P q → W q) {pgdir : Option Pgdir} (h : During P W k₀ k [ip] [ip] 1 p)
    (hd : ∀ d, pgdir = some d → d.Owns P) : (k.bad pgdir (some ip)).Ensures fun r => r.1 = -1 ∧ Done P W k₀ r.2 p := by
  have hclose : ∀ {vm : Vm}, k₀.vm.Pooled P W vm →
      (k.fs.iunlockput ip >>= fun fs => pure (-1, { k with vm := vm, fs := fs }.endOp) : Outcome (Int × Kernel)).Ensures
        fun r => r.1 = -1 ∧ Done P W k₀ r.2 p := fun hvm =>
    h.holds.iunlockput.ensures.bind fun fs hfs => ⟨rfl, ((h.setVm hvm).setFs hfs).endOp⟩
  cases pgdir with
  | none => exact hclose h.vm
  | some d => exact (h.vm.freevm (fun _ hq => hq) hPW (hd d rfl)).bind fun _ hvm => hclose hvm

theorem During.bad_late (hPW : ∀ q, P q → W q) (h : Done P W k₀ k p) (hd : d.Owns P) :
    (k.bad (some d) none).Ensures fun r => r.1 = -1 ∧ Done P W k₀ r.2 p :=
  (h.vm.freevm (fun _ hq => hq) hPW hd).bind fun _ hvm => ⟨rfl, h.setVm hvm⟩

/-! ### Loading the program -/

/-- The segment has no contents in the file, or it does not go around the end of the address space. -/
def Straight (ph : List UInt8) : Prop := phFilesz ph = 0 ∨ phVaddr ph + phMemsz ph < 2 ^ 32

/-- `exec` from a program header on, as far as it gets: `R` holds of the sizes to which `alloc` extends the image, `Q` of
    each segment for which `loaduvm` is called, and `S` when all segments are loaded. -/
def Segments (Q : List UInt8 → Prop) (R : Nat → Prop) (S : Vm → Pgdir → Nat → Prop) (alloc : Vm.Alloc)
    (b : Build) (ip : InodeIdx) :
    Nat → Kernel → Pgdir → Nat → UInt32 → List UInt8 → Prop
  | 0, k, d, sz, _, _ => S k.vm d sz
  | left + 1, k, d, sz, off, ph =>
    ∀ bs fs, k.fs.readi b.devsw ip off (.ofNat PROGHDR) = .ok ((PROGHDR : Int), bs, fs) →
      let ph := fill ph bs
      if phType ph ≠ ELF_PROG_LOAD then
        Segments Q R S alloc b ip left { k with fs := fs } d sz (off + .ofNat PROGHDR) ph
      else phFilesz ph ≤ phMemsz ph → R ((phVaddr ph + phMemsz ph) % 2 ^ 32) ∧
        ∀ sz' vm d', alloc k.vm d sz ((phVaddr ph + phMemsz ph) % 2 ^ 32) = .ok (sz', vm, d') → sz' ≠ 0 → Q ph ∧
          ∀ vm' fs', vm.loaduvm b.devsw fs d' ip (phVaddr ph) (phOff ph) (phFilesz ph) = .ok (true, vm', fs') →
            Segments Q R S alloc b ip left { k with vm := vm', fs := fs' } d' sz' (off + .ofNat PROGHDR) ph

/-- The program headers of the file that `path` names are as `Segments` says, if `exec` gets to them. -/
def Program (Q : List UInt8 → Prop) (R : Nat → Prop) (S : Vm → Pgdir → Nat → Prop) (alloc : Vm.Alloc)
    (b : Build) (k : Kernel) (path : List UInt8) : Prop :=
  ∀ ip fs₁ fs₂ r bs fs₃ d vm, k.fs.namei b.devsw k.proc.cwd path = .ok (some ip, fs₁) → fs₁.ilock ip = .ok fs₂ →
    fs₂.readi b.devsw ip 0 (.ofNat ELFHDR) = .ok (r, bs, fs₃) → ¬(0 ≤ r ∧ r < ELFHDR) → elfMagic (fill b.elf bs) = ELF_MAGIC →
    k.vm.setupkvm = .ok (some d, vm) → Segments Q R S alloc b ip (elfPhnum (fill b.elf bs))
      { k.beginOp with fs := fs₃, vm := vm } d 0 (.ofNat (elfPhoff (fill b.elf bs))) b.ph

theorem During.load {R : Nat → Prop} {S : Vm → Pgdir → Nat → Prop} (hPW : ∀ q, P q → W q) (hzero : W 0) :
    ∀ (left : Nat) {k : Kernel} {d : Pgdir} {sz : Nat} {off : UInt32} (ph : List UInt8),
    (∀ q, W q) ∨ Segments Straight R S Vm.allocuvm b ip left k d sz off ph →
    During P W k₀ k [ip] [ip] 1 p → d.Built P → sz < KERNBASE →
    (load b ip left k d sz off ph).Ensures fun r => During P W k₀ r.2.1 [ip] [ip] 1 p ∧ r.2.2.Built P ∧
      ∀ sz', r.1 = some sz' → sz' < KERNBASE ∧ ((∀ q, W q) ∨ S r.2.1.vm r.2.2 sz')
  | 0, _, _, sz, _, _, hseg, h, hd, hsz => ⟨h, hd, fun _ heq => Option.some.inj heq ▸ ⟨hsz, hseg⟩⟩
  | left + 1, k, d, sz, off, ph, hseg, h, hd, hsz => by
    rw [Kernel.load]
    refine (Fs.readi_reads b.devsw k.fs ip off (.ofNat PROGHDR)).self.bind fun ⟨r, bs, fs₁⟩ ⟨hr₁, hread⟩ => ?_
    have h₁ := h.setFs (h.holds.same hr₁.holds)
    dsimp only
    split
    · exact ⟨h₁, hd, fun _ heq => by cases heq⟩
    rename_i hr
    have hseg := hseg.imp_right fun hseg => hseg bs fs₁ (by rw [hread, not_not.mp hr])
    dsimp only at hseg
    split
    · rename_i htype
      rw [if_pos htype] at hseg
      exact During.load hPW hzero left _ hseg h₁ hd hsz
    rename_i htype
    rw [if_neg htype] at hseg
    split
    · exact ⟨h₁, hd, fun _ heq => by cases heq⟩
    rename_i hmemsz
    refine (Vm.Building.allocuvm hPW ⟨h.vm, hd⟩).self.bind fun ⟨sz₁, vm₁, d₁⟩ ⟨⟨hb, hsized⟩, halloc⟩ => ?_
    dsimp only at hb hsized ⊢
    have h₂ := h₁.setVm hb.toPooled
    split
    · exact ⟨h₂, hb.built, fun _ heq => by cases heq⟩
    rename_i hne
    obtain ⟨hnew, hmax⟩ := hsized.resolve_left hne
    have hseg := hseg.imp_right fun hseg => (hseg (Nat.le_of_not_lt hmemsz)).2 sz₁ vm₁ d₁ halloc hne
    have hW : (∀ q, W q) ∨ (∀ i < phFilesz (fill ph bs), phVaddr (fill ph bs) + i < KERNBASE) ∧ W 0 := by
      refine hseg.imp_right fun hseg => ⟨fun i hi => ?_, hzero⟩
      have hno := hseg.1.resolve_left (by omega)
      rw [Nat.mod_eq_of_lt hno] at hnew
      omega
    refine (hb.loaduvm hPW hW).self.bind fun ⟨ok, vm₂, fs₂⟩ ⟨⟨hb₂, hreads⟩, hloaded⟩ => ?_
    have h₃ := (h₁.setVm hb₂.toPooled).setFs (h₁.holds.same hreads.holds)
    cases ok with
    | false => exact ⟨h₃, hb.built, fun _ heq => by cases heq⟩
    | true => exact During.load hPW hzero left _ (hseg.imp_right fun hseg => hseg.2 vm₂ fs₂ hloaded) h₃ hb.built (by omega)

/-! ### The stack page -/

/-- Page `v` is the stack, in physical page `q`, with a guard page below. -/
structure StackPage (d : Pgdir) (v q : Nat) : Prop where
  pos : 0 < v
  high : v < KERNPAGE
  guard : Vm.Guarded d (v - 1)
  maps : Vm.Maps d v q

section Push
variable {v q sp : Nat} {bs : List UInt8}

theorem sub32_of_fits (hv : v < KERNPAGE) (hlo : v * PGSIZE + (bs.length + 3) / 4 * 4 ≤ sp) (hhi : sp ≤ v * PGSIZE + PGSIZE)
    (h4 : sp % 4 = 0) : sub32 sp bs.length / 4 * 4 = sp - (bs.length + 3) / 4 * 4 := by
  simp only [KERNPAGE, KERNBASE, PGSIZE] at *
  have hsub : sub32 sp bs.length = sp - bs.length := by
    unfold sub32
    omega
  rw [hsub]
  omega

theorem copyout_fits (cur : Pgdir) (vm : Vm) (st : StackPage d v q) (hne : bs ≠ []) (hlo : v * PGSIZE + (bs.length + 3) / 4 * 4 ≤ sp)
    (hhi : sp ≤ v * PGSIZE + PGSIZE) (h4 : sp % 4 = 0) :
    vm.copyout cur d (sub32 sp bs.length / 4 * 4) bs =
      vm.write q (sp - (bs.length + 3) / 4 * 4 - v * PGSIZE) bs >>= fun vm => .ok (true, vm) := by
  rw [sub32_of_fits st.high hlo hhi h4]
  have hlen : 0 < bs.length := List.length_pos_iff.mpr hne
  have hpage : (sp - (bs.length + 3) / 4 * 4) / PGSIZE = v := by
    simp only [PGSIZE] at *
    omega
  have hoff : (sp - (bs.length + 3) / 4 * 4) % PGSIZE = sp - (bs.length + 3) / 4 * 4 - v * PGSIZE := by
    simp only [PGSIZE] at *
    omega
  rw [Vm.copyout_in_page (hpage ▸ st.maps) hne, hoff]
  rw [hoff]
  simp only [PGSIZE] at *
  omega

theorem copyout_fits_write (cur : Pgdir) (vm : Vm) (st : StackPage d v q) (hne : bs ≠ []) (hlo : v * PGSIZE + (bs.length + 3) / 4 * 4 ≤ sp)
    (hhi : sp ≤ v * PGSIZE + PGSIZE) (h4 : sp % 4 = 0) :
    (vm.copyout cur d (sub32 sp bs.length / 4 * 4) bs).Ensures fun r =>
      r.1 = true ∧ vm.write q (sp - (bs.length + 3) / 4 * 4 - v * PGSIZE) bs = .ok r.2 := by
  rw [copyout_fits cur vm st hne hlo hhi h4]
  cases vm.write q (sp - (bs.length + 3) / 4 * 4 - v * PGSIZE) bs with
  | ok vm' => exact ⟨rfl, rfl⟩
  | sleep => trivial
  | panic msg => trivial

theorem copyout_overflows (cur : Pgdir) (vm : Vm) (hpos : 0 < v) (hv : v < KERNPAGE) (hguard : Vm.Guarded d (v - 1)) (hB : v * PGSIZE ≤ sp)
    (hlo : sp < v * PGSIZE + (bs.length + 3) / 4 * 4) (hhi : sp ≤ v * PGSIZE + PGSIZE) (h4 : sp % 4 = 0) :
    (vm.copyout cur d (sub32 sp bs.length / 4 * 4) bs).Ensures fun r => r.1 = false := by
  simp only [KERNPAGE, KERNBASE, PGSIZE] at *
  have hsub : sub32 sp bs.length < 2 ^ 32 := Nat.mod_lt _ (by decide)
  have hbelow : ∃ j < bs.length, (sub32 sp bs.length / 4 * 4 + j) % 2 ^ 32 = v * 4096 - 4 := by
    by_cases hlong : 2 ^ 32 ≤ bs.length
    · refine ⟨(v * 4096 - 4 + (2 ^ 32 - sub32 sp bs.length / 4 * 4)) % 2 ^ 32, ?_, ?_⟩
      · omega
      · omega
    · by_cases hwrap : bs.length ≤ sp
      · have : sub32 sp bs.length = sp - bs.length := by
          unfold sub32
          omega
        exact ⟨v * 4096 - 4 - sub32 sp bs.length / 4 * 4, by omega, by omega⟩
      · have : sub32 sp bs.length = sp + 2 ^ 32 - bs.length := by
          unfold sub32
          omega
        exact ⟨v * 4096 - 4 + 2 ^ 32 - sub32 sp bs.length / 4 * 4, by omega, by omega⟩
  obtain ⟨j, hj, hpage⟩ := hbelow
  refine Vm.copyoutFrom_guarded hguard _ (le_refl _) (by omega) hj ?_
  rw [hpage]
  simp only [PGSIZE]
  omega

end Push

/-! ### Arguments -/

def argBytes (argv : List (List UInt8)) : Nat := (argv.map fun arg => (arg.length + 4) / 4 * 4).sum

/-- The code, the arguments and the pointers to them fit in the stack page. -/
def ArgsFit (b : Build) (argv : List (List UInt8)) : Prop :=
  argv.length ≤ MAXARG ∧
  (exitCode.length + b.sigreturnCode.length + 3) / 4 * 4 + argBytes argv + (argv.length + 4) * 4 ≤ PGSIZE

instance (b : Build) (argv : List (List UInt8)) : Decidable (ArgsFit b argv) := inferInstanceAs (Decidable (_ ∧ _))

/-- `exec` has copied the code to the stack of the image and gets to the arguments. -/
def CopiesCode (b : Build) (cur : Pgdir) (vm : Vm) (d : Pgdir) (sz : Nat) : Prop :=
  ∃ sz' vm₁ d₁ d₂ vm₂ vm₃, vm.allocuvm d (pgroundup sz) ((pgroundup sz + 2 * PGSIZE) % 2 ^ 32) = .ok (sz', vm₁, d₁) ∧ sz' ≠ 0 ∧
    vm₁.clearpteu d₁ (sub32 sz' (2 * PGSIZE)) = .ok d₂ ∧ vm₁.copyout cur d₂ (sub32 sz' exitCode.length) exitCode = .ok (true, vm₂) ∧
    vm₂.copyout cur d₂ (sub32 (sub32 sz' exitCode.length) b.sigreturnCode.length / 4 * 4) b.sigreturnCode = .ok (true, vm₃)

/-- What has become of the arguments on the stack page: they are all there, with nothing above them changed, or they
    were too many or too long. -/
inductive Pushed (v q : Nat) (argv : List (List UInt8)) (vm : Vm) (sp : Nat) (addrs : List Nat) :
    Option (Nat × List Nat) × Vm → Prop
  | all (vm' : Vm) (addrs' : List Nat) (hfit : v * PGSIZE + argBytes argv ≤ sp)
      (hlen : addrs'.length = addrs.length + argv.length) (hmax : addrs'.length ≤ max MAXARG addrs.length)
      (hmem : ∀ o, sp ≤ v * PGSIZE + o → (vm'.mem q).byte o = (vm.mem q).byte o) :
      Pushed v q argv vm sp addrs (some (sp - argBytes argv, addrs'), vm')
  | failed (vm' : Vm) (hno : MAXARG < addrs.length + argv.length ∨ sp < v * PGSIZE + argBytes argv) :
      Pushed v q argv vm sp addrs (none, vm')

@[simp] theorem argBytes_nil : argBytes [] = 0 := rfl

@[simp] theorem argBytes_cons (arg : List UInt8) (argv : List (List UInt8)) :
    argBytes (arg :: argv) = (arg.length + 4) / 4 * 4 + argBytes argv := rfl

theorem pushArgs_pushed {v q : Nat} (st : StackPage d v q) : ∀ (argv : List (List UInt8)) (vm : Vm) (sp : Nat) (addrs : List Nat),
    v * PGSIZE ≤ sp → sp ≤ v * PGSIZE + PGSIZE → sp % 4 = 0 →
    (pushArgs cur d argv vm sp addrs).Ensures (Pushed v q argv vm sp addrs)
  | [], vm, sp, addrs, hB, _, _ => .all vm addrs (by simpa using hB) rfl (le_max_right _ _) fun _ _ => rfl
  | arg :: argv, vm, sp, addrs, hB, hhi, h4 => by
    rw [pushArgs]
    split
    · rename_i hmax
      exact .failed _ (Or.inl (by simp only [List.length_cons]; omega))
    rename_i hmax
    have hlen : (arg ++ [0]).length = arg.length + 1 := by simp
    have hround : ((arg ++ [0]).length + 3) / 4 * 4 = (arg.length + 4) / 4 * 4 := by rw [hlen]
    by_cases hlo : v * PGSIZE + (arg.length + 4) / 4 * 4 ≤ sp
    · have hlo' : v * PGSIZE + ((arg ++ [0]).length + 3) / 4 * 4 ≤ sp := hround ▸ hlo
      have hcopy := copyout_fits_write cur vm st (by simp) hlo' hhi h4
      have hsp := sub32_of_fits st.high hlo' hhi h4
      rw [hround] at hcopy hsp
      rw [hlen] at hcopy hsp
      refine hcopy.bind fun r hr => ?_
      obtain ⟨ok, vm₁⟩ := r
      obtain ⟨rfl, hwrite⟩ := hr
      have hkeep := (Vm.write_byte vm q _ _).of_eq_ok hwrite
      dsimp only
      rw [hsp, if_neg (by decide)]
      have hB' : v * PGSIZE ≤ sp - (arg.length + 4) / 4 * 4 := Nat.le_sub_of_add_le hlo
      have ih := pushArgs_pushed st argv vm₁ (sp - (arg.length + 4) / 4 * 4)
        (addrs ++ [sp - (arg.length + 4) / 4 * 4]) hB' ((Nat.sub_le _ _).trans hhi) (by omega)
      refine ih.mono fun r hr => ?_
      cases hr with
      | all vm₂ addrs₂ hfit hlen' hmax' hmem =>
        rw [List.length_append, List.length_singleton] at hlen' hmax'
        have hfit' : v * PGSIZE + argBytes (arg :: argv) ≤ sp := by
          rw [argBytes_cons, Nat.add_left_comm, Nat.add_comm]
          exact Nat.add_le_of_le_sub ((Nat.le_add_left _ _).trans hlo) hfit
        rw [Nat.sub_sub, ← argBytes_cons]
        refine .all vm₂ addrs₂ hfit' (by rw [hlen', List.length_cons]; omega) (by omega) fun o ho => ?_
        have ho' : sp - v * PGSIZE ≤ o := Nat.sub_le_iff_le_add'.mpr ho
        rw [hmem o (by omega), hkeep o (by rw [hlen]; omega)]
      | failed vm₂ hno =>
        refine .failed _ (hno.imp (fun h => ?_) fun h => ?_)
        · rw [List.length_append, List.length_singleton] at h
          rw [List.length_cons]
          omega
        · rw [argBytes_cons]
          omega
    · have hlo' : sp < v * PGSIZE + ((arg ++ [0]).length + 3) / 4 * 4 := hround ▸ Nat.lt_of_not_le hlo
      have hover := copyout_overflows cur vm st.pos st.high st.guard hB hlo' hhi h4
      rw [hlen] at hover
      refine hover.bind fun r hr => ?_
      obtain ⟨ok, vm₁⟩ := r
      obtain rfl : ok = false := hr
      exact .failed _ (Or.inr (by rw [argBytes_cons]; omega))

theorem length_flatMap_toLe (n : Nat) (words : List Nat) : (words.flatMap (toLe n)).length = n * words.length := by
  induction words with
  | nil => rfl
  | cons w words ih => rw [List.flatMap_cons, List.length_append, length_toLe, ih, List.length_cons, Nat.mul_succ, Nat.add_comm]

theorem argBytes_aligned (argv : List (List UInt8)) : argBytes argv % 4 = 0 := by
  induction argv with
  | nil => rfl
  | cons arg argv ih =>
    rw [argBytes_cons]
    omega

theorem sub32_aligned {sp n : Nat} (hsp : sp % 4 = 0) (hn : n % 4 = 0) : sub32 sp n / 4 * 4 = sub32 sp n := by
  unfold sub32
  omega

theorem length_ustack (ret sp : Nat) (addrs : List Nat) :
    ((ustack ret sp addrs).flatMap (toLe 4)).length = (3 + addrs.length + 1) * 4 := by
  rw [length_flatMap_toLe, ustack]
  simp only [List.length_append, List.length_cons, List.length_nil]
  omega

theorem ustack_ne_nil (ret sp : Nat) (addrs : List Nat) : (ustack ret sp addrs).flatMap (toLe 4) ≠ [] := by
  rw [← List.length_pos_iff, length_ustack]
  omega

theorem start_succeeds {v q sp : Nat} (st : StackPage d v q) (hB : v * PGSIZE ≤ sp) (hhi : sp ≤ v * PGSIZE + PGSIZE)
    (h4 : sp % 4 = 0) {argv : List (List UInt8)} (hmax : argv.length ≤ MAXARG)
    (hfit : v * PGSIZE + (argBytes argv + (argv.length + 4) * 4) ≤ sp) (k : Kernel) (sz ret entry : Nat) (path : List UInt8) :
    (start k cur d sz ret sp entry path argv).Ensures fun r => r.1 = 0 := by
  rw [start]
  refine (pushArgs_pushed st argv k.vm sp [] hB hhi h4).bind fun r hr => ?_
  have hargs := argBytes_aligned argv
  cases hr with
  | all vm' addrs hle hlen _ _ =>
    have hlen : addrs.length = argv.length := by simpa using hlen
    have hal : sub32 (sp - argBytes argv) ((3 + addrs.length + 1) * 4) / 4 * 4 =
        sub32 (sp - argBytes argv) ((3 + addrs.length + 1) * 4) := sub32_aligned (by omega) (by omega)
    have hroom : v * PGSIZE + ((3 + addrs.length + 1) * 4 + 3) / 4 * 4 ≤ sp - argBytes argv := by
      rw [hlen]
      generalize argBytes argv = n at hfit
      generalize v * PGSIZE = base at hfit
      omega
    have hcopy : (vm'.copyout cur d (sub32 (sp - argBytes argv) ((3 + addrs.length + 1) * 4))
        ((ustack ret (sp - argBytes argv) addrs).flatMap (toLe 4))).Ensures fun r => r.1 = true := by
      have h := copyout_fits_write cur vm' st (ustack_ne_nil ret (sp - argBytes argv) addrs)
        (by rw [length_ustack]; exact hroom) ((Nat.sub_le _ _).trans hhi) (by omega)
      rw [length_ustack, hal] at h
      exact h.mono fun _ h => h.1
    refine hcopy.bind fun r hr => ?_
    obtain ⟨ok, vm₁⟩ := r
    obtain rfl : ok = true := hr
    exact (ensures_true _).bind fun _ _ => rfl
  | failed vm' hno =>
    rcases hno with hno | hno
    · exact absurd hno (by simpa using hmax)
    · exact absurd hno (Nat.not_lt.mpr ((Nat.add_le_add_left (Nat.le_add_right _ _) _).trans hfit))

/-! ### The new image -/

theorem sized_stack {sz r : Nat} (hsz : sz < KERNBASE) (h : Vm.Sized (pgroundup sz) ((pgroundup sz + 2 * PGSIZE) % 2 ^ 32) r)
    (hne : r ≠ 0) : ∃ v, 0 < v ∧ v < KERNPAGE ∧ r = v * PGSIZE + PGSIZE := by
  rcases h with hz | ⟨hnew, hmax⟩
  · exact absurd hz hne
  · refine ⟨pgroundup sz / PGSIZE + 1, Nat.succ_pos _, ?_, ?_⟩
    all_goals
      simp only [pgroundup, KERNPAGE, KERNBASE, PGSIZE] at *
      omega

theorem stack_top {v : Nat} (hpos : 0 < v) (hv : v < KERNPAGE) :
    sub32 (v * PGSIZE + PGSIZE) (2 * PGSIZE) / PGSIZE = v - 1 ∧
    sub32 (v * PGSIZE + PGSIZE) exitCode.length = v * PGSIZE + PGSIZE - 8 ∧ (v * PGSIZE + PGSIZE - 8) % 4 = 0 := by
  simp only [sub32, exitCode, KERNPAGE, KERNBASE, PGSIZE, List.length_cons, List.length_nil] at *
  omega

theorem stack_failed (path : List UInt8) (entry : Nat) (hPW : ∀ q, P q → W q) (hW : ¬∀ q, W q) (hs : k₀.vm.NullSafe W cur)
    (h : Done P W k₀ k p) (hd : d.Built P) {sz : Nat} (hsz : sz < KERNBASE) {argv : List (List UInt8)}
    (hfit : CopiesCode b cur k.vm d sz → ArgsFit b argv) {k' : Kernel} (hrun : stack b k cur d sz entry path argv = .ok (-1, k')) :
    Done P W k₀ k' p := by
  suffices hpost : ∀ r, stack b k cur d sz entry path argv = .ok r → r.1 = -1 → Done P W k₀ r.2 p from hpost _ hrun rfl
  refine ensures_iff.mp ?_
  have hlate : ∀ {k : Kernel} {d : Pgdir}, Done P W k₀ k p → d.Built P →
      (k.bad (some d) none).Ensures fun r => r.1 = -1 → Done P W k₀ r.2 p := fun hk hd =>
    (hk.bad_late hPW hd.toOwns).mono fun _ hr _ => hr.2
  rw [stack]
  dsimp only
  generalize hnew : (pgroundup sz + 2 * PGSIZE) % 2 ^ 32 = newsz
  refine (Vm.Building.allocuvm hPW ⟨h.vm, hd⟩).self.bind fun ⟨sz₁, vm₁, d₁⟩ ⟨⟨hb, hsized⟩, halloc⟩ => ?_
  rw [← hnew] at halloc hsized
  dsimp only at hb hsized ⊢
  split
  · exact hlate (h.setVm hb.toPooled) hb.built
  rename_i hne
  obtain ⟨v, hpos, hv, rfl⟩ := sized_stack hsz hsized hne
  obtain ⟨hguarded, hret, h4⟩ := stack_top hpos hv
  refine (hb.clearpteu.and (Vm.clearpteu_guarded _ _ _)).self.bind fun d₂ ⟨⟨hb₂, hguard⟩, hclear⟩ => ?_
  rw [hguarded] at hguard
  -- The exit code goes to the top of the stack page, which is there if that works.
  have hpage : (v * PGSIZE + PGSIZE - 8) / PGSIZE = v := by
    simp only [PGSIZE]
    omega
  rw [hret]
  refine ((hb₂.copyout hPW hs).and
    (Vm.copyout_maps (v * PGSIZE + PGSIZE - 8) (hs.keep hb₂.toPooled) hW (by decide))).self.bind fun ⟨ok, vm₃⟩ ⟨⟨hb₃, hmaps⟩, hexit⟩ => ?_
  dsimp only at hb₃ hmaps ⊢
  cases ok with
  | false => exact hlate (h.setVm hb₃.toPooled) hb₃.built
  | true =>
  obtain ⟨q, hq⟩ := hmaps rfl
  have st : StackPage d₂ v q := ⟨hpos, hv, hguard, hpage ▸ hq⟩
  rw [if_neg (by decide)]
  refine (hb₃.copyout hPW hs).self.bind fun ⟨ok, vm₄⟩ ⟨hb₄, hcode⟩ => ?_
  cases ok with
  | false => exact hlate (h.setVm hb₄.toPooled) hb₄.built
  | true =>
  dsimp only
  rw [if_neg (by decide)]
  obtain ⟨hmax, hroom⟩ := hfit ⟨_, vm₁, d₁, d₂, vm₃, vm₄, halloc, hne, hclear, by rw [hret, hexit], by rw [hret, hcode]⟩
  have hargs := argBytes_aligned argv
  rw [show exitCode.length = 8 from rfl] at hroom
  have hlo : v * PGSIZE + (b.sigreturnCode.length + 3) / 4 * 4 ≤ v * PGSIZE + PGSIZE - 8 := by
    simp only [PGSIZE] at *
    omega
  have hhi : v * PGSIZE + PGSIZE - 8 ≤ v * PGSIZE + PGSIZE := Nat.sub_le _ _
  rw [sub32_of_fits hv hlo hhi h4]
  -- From here on nothing fails.
  have hlow : v * PGSIZE + (argBytes argv + (argv.length + 4) * 4) ≤
      v * PGSIZE + PGSIZE - 8 - (b.sigreturnCode.length + 3) / 4 * 4 := by
    generalize argBytes argv = n at hroom hargs
    simp only [PGSIZE] at *
    omega
  refine (start_succeeds st ?_ ?_ ?_ hmax hlow _ _ _ _ path).mono fun r hr hfail => ?_
  · exact (Nat.le_add_right _ _).trans hlow
  · exact (Nat.sub_le _ _).trans hhi
  · omega
  · rw [hr] at hfail
    cases hfail

/-! ### All or nothing -/

/-- A call of `exec` fails with nothing done, or comes to the stack with the file closed and the segments loaded. -/
theorem execIn_during {R : Nat → Prop} {S : Vm → Pgdir → Nat → Prop} (hPW : ∀ q, P q → W q) (hzero : W 0)
    (hfree : ∀ q ∈ k.vm.free, P q) {path : List UInt8} {argv : List (List UInt8)}
    (hload : (∀ q, W q) ∨ Program Straight R S Vm.allocuvm b k path) {post : Int × Kernel → Prop}
    (hfail : ∀ k', Done P W k k' k.proc → post (-1, k'))
    (hstack : ∀ k' d sz entry r, Done P W k k' k.proc → d.Built P → sz < KERNBASE → (∀ q, W q) ∨ S k'.vm d sz →
      stack b k' cur d sz entry path argv = .ok r → post r) : (execIn b k cur path argv).Ensures post := by
  have hbegin : During P W k k.beginOp [] [] 1 k.proc := ⟨.start k.fs, rfl, .start hfree, rfl⟩
  rw [execIn]
  dsimp only
  refine (Fs.namei_holding b.devsw k.fs k.proc.cwd path).ensures.self.bind fun ⟨found, fs₁⟩ ⟨hheld, hnamei⟩ => ?_
  cases found with
  | none => exact hfail _ (hbegin.setFs hheld).endOp
  | some ip =>
  dsimp only
  refine (hheld.ilock ip).ensures.self.bind fun fs₂ ⟨hlocked, hlock⟩ => ?_
  refine (Fs.readi_holds b.devsw fs₂ ip 0 (.ofNat ELFHDR)).ensures.self.bind fun ⟨r, bs, fs₃⟩ ⟨hsame, hread⟩ => ?_
  have h₃ := hbegin.setFs (hlocked.same hsame)
  have hbad : ∀ {k' : Kernel} {pgdir : Option Pgdir}, During P W k k' [ip] [ip] 1 k.proc → (∀ d, pgdir = some d → d.Owns P) →
      (k'.bad pgdir (some ip)).Ensures post := fun h hd =>
    (h.bad hPW hd).mono fun r hr => by
      obtain ⟨r, k'⟩ := r
      obtain rfl : r = -1 := hr.1
      exact hfail k' hr.2
  dsimp only
  split
  · exact hbad h₃ fun _ h => nomatch h
  rename_i hlong
  split
  · exact hbad h₃ fun _ h => nomatch h
  rename_i hmagic
  refine h₃.vm.setupkvm.self.bind fun ⟨pgdir, vm₁⟩ ⟨hs₁, hset⟩ => ?_
  have h₄ := h₃.setVm hs₁.1
  cases pgdir with
  | none => exact hbad h₄ fun _ h => nomatch h
  | some d =>
  dsimp only
  have hsegs := hload.imp_right fun h => h ip fs₁ fs₂ r bs fs₃ d vm₁ hnamei hlock hread hlong (not_not.mp hmagic) hset
  refine (During.load hPW hzero _ b.ph hsegs h₄ (hs₁.2 d rfl).built (by decide)).bind fun l hl => ?_
  obtain ⟨loaded, k₁, d₁⟩ := l
  obtain ⟨h₅, hd₁, hsz⟩ := hl
  dsimp only at h₅ hd₁ hsz
  cases loaded with
  | none => exact hbad h₅ fun _ h => Option.some.inj h ▸ hd₁.toOwns
  | some sz =>
  refine h₅.holds.iunlockput.ensures.bind fun fs₄ hfs₄ => ?_
  rw [ensures_iff]
  intro r hrun
  exact hstack _ _ _ _ r (h₅.setFs hfs₄).endOp hd₁ (hsz sz rfl).1 (hsz sz rfl).2 hrun

end Kernel
end Xv6
