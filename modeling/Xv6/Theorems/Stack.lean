import Xv6.Theorems.ExecRuns

/-! What `exec` pushes on the stack of the new image. -/

namespace Xv6
open Bytes

structure Region where
  addr : Nat
  bytes : List UInt8

def Region.top (r : Region) : Nat := r.addr + r.bytes.length

namespace Kernel
open Vm
variable {b : Build} {k : Kernel} {cur d : Pgdir} {vm vm' : Vm} {v q sp : Nat} {rs : List Region}

/-! ### Pushing -/

/-- Page `v` may be the stack: there is a guard page below. -/
structure StackTop (d : Pgdir) (v : Nat) : Prop where
  pos : 0 < v
  high : v < KERNPAGE
  guard : Guarded d (v - 1)

theorem StackTop.page (h : StackTop d v) (hq : Maps d v q) : StackPage d v q := ⟨h.pos, h.high, h.guard, hq⟩

theorem copyout_copied (cur : Pgdir) (vm : Vm) (st : StackTop d v) (bs : List UInt8) (hne : bs ≠ []) (hB : v * PGSIZE ≤ sp)
    (hhi : sp ≤ v * PGSIZE + PGSIZE) (h4 : sp % 4 = 0) :
    (vm.copyout cur d (sub32 sp bs.length / 4 * 4) bs).Ensures fun r => r.1 = true →
      v * PGSIZE + (bs.length + 3) / 4 * 4 ≤ sp ∧
      ∀ q, Maps d v q → vm.write q (sp - (bs.length + 3) / 4 * 4 - v * PGSIZE) bs = .ok r.2 := by
  refine Outcome.ensures_iff.mpr fun r hr hok => ?_
  by_cases hlo : v * PGSIZE + (bs.length + 3) / 4 * 4 ≤ sp
  · exact ⟨hlo, fun q hq => ((copyout_fits_write cur vm (st.page hq) hne hlo hhi h4).of_eq_ok hr).2⟩
  · have hfail := (copyout_overflows cur vm st.pos st.high st.guard hB (Nat.lt_of_not_le hlo) hhi h4).of_eq_ok hr
    rw [hok] at hfail
    cases hfail

/-- What has been pushed on the stack page, the last first: all of it is there, above the stack pointer. -/
structure Laid (page : Page) (v sp : Nat) (rs : List Region) : Prop where
  low : v * PGSIZE ≤ sp
  high : sp ≤ v * PGSIZE + PGSIZE
  aligned : sp % 4 = 0
  inside : ∀ r ∈ rs, sp ≤ r.addr ∧ r.top ≤ v * PGSIZE + PGSIZE
  apart : rs.Pairwise fun r s => r.top ≤ s.addr
  bytes : ∀ r ∈ rs, page.getBytes (r.addr - v * PGSIZE) r.bytes.length = r.bytes

theorem Laid.nil {page : Page} (hlo : v * PGSIZE ≤ sp) (hhi : sp ≤ v * PGSIZE + PGSIZE) (h4 : sp % 4 = 0) : Laid page v sp [] :=
  ⟨hlo, hhi, h4, fun _ hr => absurd hr List.not_mem_nil, .nil, fun _ hr => absurd hr List.not_mem_nil⟩

theorem Laid.push {page : Page} (h : Laid page v sp rs) {bs : List UInt8} {sp' : Nat} (hsp : sp' = sp - (bs.length + 3) / 4 * 4)
    (hfit : v * PGSIZE + (bs.length + 3) / 4 * 4 ≤ sp) : Laid (page.setBytes (sp' - v * PGSIZE) bs) v sp' (⟨sp', bs⟩ :: rs) := by
  have hlow : v * PGSIZE ≤ sp' := hsp ▸ Nat.le_sub_of_add_le hfit
  have htop : sp' + bs.length ≤ sp := by omega
  have hhigh := h.high
  have h4 := h.aligned
  refine ⟨hlow, by omega, by omega, ?_, List.pairwise_cons.mpr ⟨fun r hr => htop.trans (h.inside r hr).1, h.apart⟩, ?_⟩
  · intro r hr
    rcases List.mem_cons.mp hr with rfl | hr
    · exact ⟨le_refl _, htop.trans hhigh⟩
    · exact ⟨((Nat.le_add_right _ _).trans htop).trans (h.inside r hr).1, (h.inside r hr).2⟩
  · intro r hr
    rcases List.mem_cons.mp hr with rfl | hr
    · exact page.getBytes_setBytes_same _ _ (by omega)
    · have hle := htop.trans (h.inside r hr).1
      rw [page.getBytes_setBytes_disjoint (.inr (by omega)), h.bytes r hr]

/-- The regions have been pushed on page `v` of `d`, if it is mapped at all. -/
def OnStack (vm : Vm) (d : Pgdir) (v sp : Nat) (rs : List Region) : Prop :=
  ∃ page, Laid page v sp rs ∧ ∀ q, Maps d v q → vm.mem q = page

theorem OnStack.nil (vm : Vm) (d : Pgdir) (hlo : v * PGSIZE ≤ sp) (hhi : sp ≤ v * PGSIZE + PGSIZE) (h4 : sp % 4 = 0) :
    OnStack vm d v sp [] := by
  refine ⟨((d.pte v).map fun e => vm.mem e.page).getD .zero, .nil hlo hhi h4, ?_⟩
  rintro q ⟨-, e, he, -, rfl⟩
  rw [he]
  rfl

theorem mem_of_write {o : Nat} {bs : List UInt8} (h : vm.write q o bs = .ok vm') : vm'.mem q = (vm.mem q).setBytes o bs := by
  rw [write] at h
  split at h
  · cases h
  · cases h
    exact Function.update_self ..

theorem copyout_laid (cur : Pgdir) (st : StackTop d v) (h : OnStack vm d v sp rs) {bs : List UInt8} (hne : bs ≠ []) :
    (vm.copyout cur d (sub32 sp bs.length / 4 * 4) bs).Ensures fun r => r.1 = true →
      OnStack r.2 d v (sub32 sp bs.length / 4 * 4) (⟨sub32 sp bs.length / 4 * 4, bs⟩ :: rs) := by
  obtain ⟨page, h, hpage⟩ := h
  refine (copyout_copied cur vm st bs hne h.low h.high h.aligned).mono fun r hr hok => ?_
  obtain ⟨hfit, hwrite⟩ := hr hok
  rw [sub32_of_fits st.high hfit h.high h.aligned]
  exact ⟨_, h.push rfl hfit, fun q hq => by rw [mem_of_write (hwrite q hq), hpage q hq]⟩

def strings (addrs : List Nat) (argv : List (List UInt8)) : List Region :=
  (List.zipWith (fun a arg => ⟨a, arg ++ [0]⟩) addrs argv).reverse

theorem strings_cons (a : Nat) (addrs : List Nat) (arg : List UInt8) (argv : List (List UInt8)) :
    strings (a :: addrs) (arg :: argv) = strings addrs argv ++ [⟨a, arg ++ [0]⟩] := List.reverse_cons

theorem pushArgs_laid (cur : Pgdir) (st : StackTop d v) : ∀ (argv : List (List UInt8)) {vm : Vm} {sp : Nat} (addrs : List Nat)
    {rs : List Region}, OnStack vm d v sp rs →
    (pushArgs cur d argv vm sp addrs).Ensures fun r => ∀ sp' addrs', r.1 = some (sp', addrs') →
      ∃ new, addrs' = addrs ++ new ∧ new.length = argv.length ∧ addrs'.length ≤ max MAXARG addrs.length ∧
        OnStack r.2 d v sp' (strings new argv ++ rs)
  | [], vm, sp, addrs, rs, h => by
    rintro sp' addrs' heq
    cases heq
    exact ⟨[], (List.append_nil _).symm, rfl, le_max_right _ _, h⟩
  | arg :: argv, vm, sp, addrs, rs, h => by
    rw [pushArgs]
    split
    · exact fun _ _ heq => by cases heq
    rename_i hmax
    have hlen : (arg ++ [0]).length = arg.length + 1 := List.length_append
    have hcopy := copyout_laid cur st h (show arg ++ [0] ≠ [] by simp)
    rw [hlen] at hcopy
    refine hcopy.bind fun r hr => ?_
    dsimp only
    split
    · exact fun _ _ heq => by cases heq
    rename_i hok
    refine (pushArgs_laid cur st argv _ (hr (by simpa using hok))).mono fun r' hr' sp' addrs' heq => ?_
    obtain ⟨new, haddrs, hnew, hmany, hlaid⟩ := hr' sp' addrs' heq
    rw [List.length_append, List.length_singleton] at hmany
    refine ⟨_ :: new, by rw [haddrs, List.append_assoc]; rfl, by rw [List.length_cons, List.length_cons, hnew], by omega, ?_⟩
    rw [strings_cons, List.append_assoc]
    exact hlaid

/-! ### The frame of `main` -/

/-- The words at the stack pointer `esp`: the return address, the number of arguments, the address of the words that
    come next, the addresses of the arguments, and a zero. -/
def frame (ret esp : Nat) (addrs : List Nat) : List UInt8 := ([ret, addrs.length, esp + 12] ++ addrs ++ [0]).flatMap (toLe 4)

theorem length_frame (ret esp : Nat) (addrs : List Nat) : (frame ret esp addrs).length = (3 + addrs.length + 1) * 4 := by
  rw [frame, length_flatMap_toLe]
  simp only [List.length_append, List.length_cons, List.length_nil]
  omega

def regions (code : List UInt8) (argv : List (List UInt8)) (k : Kernel) (ret : Nat) (addrs : List Nat) : List Region :=
  ⟨k.proc.tf.esp.toNat, frame ret k.proc.tf.esp.toNat addrs⟩ :: strings addrs argv ++
    [⟨k.proc.retAdd.toNat, code⟩, ⟨ret, exitCode⟩]

theorem freevm_keeps (vm : Vm) (hcur : cur.Owns (· ≠ q)) : (vm.freevm cur).Ensures fun vm' => vm'.mem q = vm.mem q :=
  (Pooled.freevm (P := fun _ => True) (W := (· ≠ q)) (fun _ _ => trivial) (fun _ hq => hq)
    (.start fun _ _ => trivial) hcur).mono fun _ h => h.mem q fun hne => hne rfl

theorem start_laid {sz ret entry : Nat} {path : List UInt8} {argv : List (List UInt8)} (st : StackTop d v)
    (hcur : ∀ q, Maps d v q → cur.Owns (· ≠ q)) (h : OnStack k.vm d v sp rs) :
    (start k cur d sz ret sp entry path argv).Ensures fun r => r.1 = 0 →
      r.2.proc.pgdir = some d ∧ r.2.proc.sz = sz ∧ r.2.proc.retAdd = k.proc.retAdd ∧ ∃ addrs, addrs.length = argv.length ∧
        OnStack r.2.vm d v r.2.proc.tf.esp.toNat
          (⟨r.2.proc.tf.esp.toNat, frame ret r.2.proc.tf.esp.toNat addrs⟩ :: strings addrs argv ++ rs) := by
  rw [start]
  refine (pushArgs_laid cur st argv [] h).bind fun r hr => ?_
  obtain ⟨pushed, vm₁⟩ := r
  cases pushed with
  | none => exact (bad_fails _ _ _).mono fun r hr hzero => absurd hzero hr
  | some pushed =>
  obtain ⟨sp₁, addrs⟩ := pushed
  obtain ⟨new, hnew, hcount, -, h₁⟩ := hr sp₁ addrs rfl
  obtain rfl : addrs = new := hnew
  dsimp only
  have hlen := length_ustack ret sp₁ addrs
  have hcopy := copyout_laid cur st h₁ (ustack_ne_nil ret sp₁ addrs)
  obtain ⟨_, hlaid₁, -⟩ := h₁
  rw [hlen, sub32_aligned hlaid₁.aligned (by omega)] at hcopy
  refine hcopy.bind fun r hr => ?_
  obtain ⟨ok, vm₂⟩ := r
  dsimp only
  split
  · exact (bad_fails _ _ _).mono fun r hr hzero => absurd hzero hr
  rename_i hok
  obtain ⟨page, h₂, hpage⟩ := hr (by simpa using hok)
  generalize hesp : sub32 sp₁ ((3 + addrs.length + 1) * 4) = esp at h₂ ⊢
  have hlt : esp < 2 ^ 32 := hesp ▸ Nat.mod_lt _ (by decide)
  -- The frame fits in the page, so nothing wraps.
  have hargv : sub32 sp₁ ((addrs.length + 1) * 4) = esp + 12 := by
    have hfits := (h₂.inside _ List.mem_cons_self).2
    have hhigh := hlaid₁.high
    have hv := st.high
    rw [Region.top, hlen] at hfits
    unfold sub32 at hesp ⊢
    simp only [KERNPAGE, KERNBASE, PGSIZE] at *
    omega
  have hframe : (ustack ret sp₁ addrs).flatMap (toLe 4) = frame ret esp addrs := by
    rw [ustack, hargv]
    rfl
  rw [hframe] at h₂
  refine Outcome.Ensures.bind (Outcome.ensures_iff.mpr fun vm₃ hvm₃ q hq => (freevm_keeps vm₂ (hcur q hq)).of_eq_ok hvm₃)
    fun vm₃ hvm₃ _ => ⟨rfl, rfl, rfl, addrs, hcount, page, ?_, fun q hq => (hvm₃ q hq).trans (hpage q hq)⟩
  have hesp' : (UInt32.ofNat esp).toNat = esp := UInt32.toNat_ofNat_of_lt' hlt
  dsimp only
  rw [hesp']
  exact h₂

theorem stackOn_laid {P W : Nat → Prop} {vm₀ : Vm} {entry : Nat} {path : List UInt8} {argv : List (List UInt8)}
    (hb : Building P W vm₀ k.vm d) (hpos : 0 < v) (hv : v < KERNPAGE) (hcur : cur.Owns (¬P ·)) :
    (Loader.stackOn b k cur d (v * PGSIZE + PGSIZE) entry path argv).Ensures fun r => r.1 = 0 → ∃ d' addrs,
      k.vm.clearpteu d (sub32 (v * PGSIZE + PGSIZE) (2 * PGSIZE)) = .ok d' ∧ StackTop d' v ∧ r.2.proc.pgdir = some d' ∧
      r.2.proc.sz = v * PGSIZE + PGSIZE ∧ addrs.length = argv.length ∧
      OnStack r.2.vm d' v r.2.proc.tf.esp.toNat (regions b.sigreturnCode argv r.2 (v * PGSIZE + PGSIZE - 8) addrs) := by
  obtain ⟨hguarded, hret, -⟩ := stack_top hpos hv
  rw [Loader.stackOn]
  refine Outcome.Ensures.bind (Outcome.ensures_iff.mpr fun d' hd' => hd') fun d' hclear => ?_
  have st : StackTop d' v := ⟨hpos, hv, hguarded ▸ (clearpteu_guarded _ _ _).of_eq_ok hclear⟩
  have hkeep : ∀ q, Maps d' v q → cur.Owns (· ≠ q) := by
    rintro q ⟨-, e, he, huser, rfl⟩
    have hP : P e.page := ((hb.clearpteu.of_eq_ok hclear).built.user v e he huser).1
    exact ⟨fun heq => hcur.dir (heq.symm ▸ hP), fun i t ht heq => hcur.table i t ht (heq.symm ▸ hP),
      fun u x hx hlt heq => hcur.low u x hx hlt (heq.symm ▸ hP)⟩
  have h₀ : OnStack k.vm d' v (v * PGSIZE + PGSIZE) [] := .nil _ _ (Nat.le_add_right _ _) le_rfl (by simp only [PGSIZE]; omega)
  have hcopy := copyout_laid cur st h₀ (show exitCode ≠ [] by decide)
  rw [sub32_aligned (by simp only [PGSIZE]; omega) (by decide), hret] at hcopy
  rw [hret]
  refine hcopy.bind fun r hr => ?_
  obtain ⟨ok, vm₁⟩ := r
  dsimp only at hr ⊢
  split
  · exact (bad_fails _ _ _).mono fun r hr hzero => absurd hzero hr
  rename_i hok
  refine (copyout_laid cur st (hr (by simpa using hok)) b.code_ne).bind fun r hr => ?_
  obtain ⟨ok, vm₂⟩ := r
  dsimp only at hr ⊢
  split
  · exact (bad_fails _ _ _).mono fun r hr hzero => absurd hzero hr
  rename_i hok₂
  refine (start_laid st hkeep (hr (by simpa using hok₂))).mono fun r hr hzero => ?_
  obtain ⟨hpgdir, hsz, hadd, addrs, hcount, h₃⟩ := hr hzero
  refine ⟨d', addrs, hclear, st, hpgdir, hsz, hcount, ?_⟩
  have hsp : (UInt32.ofNat (sub32 (v * PGSIZE + PGSIZE - 8) b.sigreturnCode.length / 4 * 4)).toNat =
      sub32 (v * PGSIZE + PGSIZE - 8) b.sigreturnCode.length / 4 * 4 :=
    UInt32.toNat_ofNat_of_lt' (lt_of_le_of_lt (Nat.div_mul_le_self _ _) (Nat.mod_lt _ (by decide)))
  rw [regions, hadd, hsp]
  exact h₃

end Kernel
end Xv6
