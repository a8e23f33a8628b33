import Xv6.Exit
import Xv6.Theorems.Stack

/-! What the exit code on the stack of a new image does when `main` returns to it. -/

namespace Xv6
open Bytes

namespace Kernel
variable {b : Build} {P : Nat → Prop} {k k' : Kernel} {d cur : Pgdir} {v : Nat}

/-! ### The stack that `exec` leaves -/

/-- The frame of `main` at offset `o` of the stack page, and the exit code at the end of the page. -/
structure Frame (page : Page) (o ret argc : Nat) : Prop where
  ret : page.word 4 o = ret
  argc : page.word 4 (o + 4) = argc
  code : page.getBytes (PGSIZE - 8) 8 = exitCode

/-- The process is about to enter `main` with its stack in page `v`. -/
structure Entered (argc : Nat) (k : Kernel) (d : Pgdir) (v : Nat) : Prop where
  pgdir : k.proc.pgdir = some d
  high : v < KERNPAGE
  sz : k.proc.sz = v * PGSIZE + PGSIZE
  low : v * PGSIZE ≤ k.proc.tf.esp.toNat
  fits : k.proc.tf.esp.toNat + 24 ≤ v * PGSIZE + PGSIZE
  frame : ∀ q, Vm.Maps d v q → Frame (k.vm.mem q) (k.proc.tf.esp.toNat - v * PGSIZE) (v * PGSIZE + PGSIZE - 8) argc

theorem Frame.of_bytes {page : Page} {o ret esp : Nat} {addrs : List Nat} (hret : ret < 2 ^ 32) (hargc : addrs.length < 2 ^ 32)
    (hframe : page.getBytes o (frame ret esp addrs).length = frame ret esp addrs)
    (hcode : page.getBytes (PGSIZE - 8) 8 = exitCode) : Frame page o ret addrs.length := by
  have hsplit : frame ret esp addrs =
      toLe 4 ret ++ (toLe 4 addrs.length ++ (toLe 4 (esp + 12) ++ (addrs ++ [0]).flatMap (toLe 4))) := by
    simp [frame]
  rw [hsplit, List.length_append, List.length_append, Buffer.getBytes_add, Buffer.getBytes_add] at hframe
  simp only [length_toLe] at hframe
  obtain ⟨h₁, hrest⟩ := List.append_inj hframe (by simp)
  obtain ⟨h₂, -⟩ := List.append_inj hrest (by simp)
  refine ⟨?_, ?_, hcode⟩
  · rw [Buffer.word, h₁, ofLe_toLe]
    exact Nat.mod_eq_of_lt hret
  · rw [Buffer.word, h₂, ofLe_toLe]
    exact Nat.mod_eq_of_lt hargc

theorem Entered.of_onStack {code : List UInt8} {argv : List (List UInt8)} {addrs : List Nat} (st : StackTop d v)
    (hd : k.proc.pgdir = some d) (hsz : k.proc.sz = v * PGSIZE + PGSIZE) (hcount : addrs.length = argv.length)
    (h : OnStack k.vm d v k.proc.tf.esp.toNat (regions code argv k (v * PGSIZE + PGSIZE - 8) addrs)) :
    Entered argv.length k d v := by
  obtain ⟨page, h, hpage⟩ := h
  have hlow := h.low
  have hv := st.high
  have hexit : (⟨v * PGSIZE + PGSIZE - 8, exitCode⟩ : Region) ∈
      strings addrs argv ++ [⟨k.proc.retAdd.toNat, code⟩, ⟨v * PGSIZE + PGSIZE - 8, exitCode⟩] := by simp
  have hfits : k.proc.tf.esp.toNat + (3 + addrs.length + 1) * 4 ≤ v * PGSIZE + PGSIZE - 8 := by
    rw [← length_frame (v * PGSIZE + PGSIZE - 8) k.proc.tf.esp.toNat]
    exact (List.pairwise_cons.mp h.apart).1 _ hexit
  have htop : v * PGSIZE + PGSIZE < 2 ^ 32 := by
    simp only [KERNPAGE, KERNBASE, PGSIZE] at *
    omega
  have hcode := h.bytes _ (List.mem_cons_of_mem _ hexit)
  have hoff : v * PGSIZE + PGSIZE - 8 - v * PGSIZE = PGSIZE - 8 := by
    simp only [PGSIZE]
    omega
  refine ⟨hd, st.high, hsz, hlow, by omega, fun q hq => ?_⟩
  rw [hpage q hq, ← hcount]
  exact .of_bytes (by omega) (by omega) (h.bytes _ List.mem_cons_self) (hoff ▸ hcode)

theorem stack_entered {sz entry : Nat} {path : List UInt8} {argv : List (List UInt8)} {vm₀ : Vm}
    (hcur : cur.Owns (¬P ·)) (hb : Vm.Building P (fun _ => True) vm₀ k.vm d) (hsz : sz < KERNBASE)
    (hrun : stack b k cur d sz entry path argv = .ok (0, k')) : ∃ d' v, Entered argv.length k' d' v := by
  rw [stack] at hrun
  dsimp only at hrun
  generalize hnew : (pgroundup sz + 2 * PGSIZE) % 2 ^ 32 = newsz at hrun
  obtain ⟨⟨sz₁, vm₁, d₁⟩, halloc, hrun⟩ := Outcome.bind_eq_ok.mp hrun
  obtain ⟨hb₁, hsized⟩ := (hb.allocuvm fun _ _ => trivial).of_eq_ok halloc
  dsimp only at hb₁ hsized hrun
  split at hrun
  · exact absurd rfl ((bad_fails _ _ _).of_eq_ok hrun)
  rename_i hne
  obtain ⟨v, hpos, hv, rfl⟩ := sized_stack hsz (hnew ▸ hsized) hne
  obtain ⟨d', addrs, -, st, hpgdir, hsz', hcount, h⟩ :=
    (@stackOn_laid b { k with vm := vm₁ } cur d₁ v P _ vm₀ entry path argv hb₁ hpos hv hcur).of_eq_ok hrun rfl
  exact ⟨d', v, .of_onStack st hpgdir hsz' hcount h⟩

theorem execIn_entered {path : List UInt8} {argv : List (List UInt8)} (hcur : cur.Owns (· ∉ k.vm.free)) :
    (execIn b k cur path argv).Ensures fun r => r.1 = 0 → ∃ d v, Entered argv.length r.2 d v := by
  refine execIn_during (P := (· ∈ k.vm.free)) (R := fun _ => True) (S := fun _ _ _ => True) (fun _ _ => trivial) trivial
    (fun _ hq => hq) (.inl fun _ => trivial) (fun _ _ hzero => nomatch hzero) ?_
  rintro k' d sz entry ⟨r, k''⟩ h hd hsz - hrun (rfl : r = 0)
  exact stack_entered hcur ⟨h.vm, hd⟩ hsz hrun

end Kernel

/-! ### The exit code -/

namespace Space
variable {m : Space} {page : Page}

theorem mapM_range {α : Type} {f : Nat → Option α} {g : Nat → α} {n : Nat} (h : ∀ j < n, f j = some (g j)) :
    (List.range n).mapM f = some ((List.range n).map g) := by
  induction n with
  | zero => rfl
  | succ n ih =>
    rw [List.range_succ, List.mapM_append, ih fun j hj => h j (by omega), List.map_append]
    simp [h n]

theorem load_page {a o n : Nat} (h : ∀ j < n, m (a + j) = some ⟨page.byte (o + j), true⟩) : m.load a n = some (page.getBytes o n) :=
  mapM_range fun j hj => by simp [h j hj]

theorem kload_page {a o n : Nat} (h : ∀ j < n, m (a + j) = some ⟨page.byte (o + j), true⟩) : m.kload a n = some (page.getBytes o n) :=
  mapM_range fun j hj => by simp [h j hj]

end Space

theorem toNat_add_of_lt {a b : UInt32} (h : a.toNat + b.toNat < 2 ^ 32) : (a + b).toNat = a.toNat + b.toNat := by
  rw [UInt32.toNat_add, Nat.mod_eq_of_lt h]

namespace Kernel
variable {k : Kernel} {d : Pgdir} {argc v q : Nat} {m : Space}

theorem space_of_maps {a : Nat} (hd : k.proc.pgdir = some d) (hq : Vm.Maps d v q) (hlo : v * PGSIZE ≤ a)
    (hhi : a < v * PGSIZE + PGSIZE) : k.space a = some ⟨(k.vm.mem q).byte (a - v * PGSIZE), true⟩ := by
  obtain ⟨ht, e, he, huser, rfl⟩ := hq
  obtain ⟨t, ht⟩ := Option.ne_none_iff_exists'.mp ht
  have hdiv : a / PGSIZE = v := by
    simp only [PGSIZE] at *
    omega
  have hmod : a % PGSIZE = a - v * PGSIZE := by
    simp only [PGSIZE] at *
    omega
  simp only [space, hd, hdiv, ht, he, hmod, huser]

theorem maps_of_space {a : Nat} {x : Cell} (hd : k.proc.pgdir = some d) (h : k.space a = some x) (huser : x.user = true) :
    ∃ q, Vm.Maps d (a / PGSIZE) q := by
  simp only [space, hd] at h
  split at h
  · rename_i t e ht he
    cases h
    exact ⟨e.page, by simp [ht], e, he, huser, rfl⟩
  · cases h

/-- The memory that `main` leaves: nothing from its frame on has changed. -/
def Untouched (k : Kernel) (m : Space) : Prop := ∀ a, k.proc.tf.esp.toNat ≤ a → a < k.proc.sz → m a = k.space a

theorem ret_maps {eip eax : UInt32} {c : Cpu} (h : Entered argc k d v) (hm : k.Untouched m)
    (hret : (Cpu.mk eip k.proc.tf.esp eax m).ret = some c) : ∃ q, Vm.Maps d v q := by
  have hload : ∃ pc, m.load k.proc.tf.esp.toNat 4 = some pc := by
    cases hload : m.load k.proc.tf.esp.toNat 4 with
    | none => simp [Cpu.ret, hload] at hret
    | some pc => exact ⟨pc, rfl⟩
  obtain ⟨pc, hload⟩ := hload
  have hlo := h.low
  have hfits := h.fits
  cases hcell : (m k.proc.tf.esp.toNat).filter Cell.user with
  | none => simp [Space.load, List.range_succ, hcell] at hload
  | some x =>
    obtain ⟨hx, huser⟩ := Option.filter_eq_some_iff.mp hcell
    rw [hm _ le_rfl (by rw [h.sz]; omega)] at hx
    have hdiv : k.proc.tf.esp.toNat / PGSIZE = v := by
      simp only [PGSIZE] at *
      omega
    exact hdiv ▸ maps_of_space h.pgdir hx huser

def Above (m : Space) (page : Page) (v esp : Nat) : Prop :=
  ∀ a, esp + 4 ≤ a → a < v * PGSIZE + PGSIZE → m a = some ⟨page.byte (a - v * PGSIZE), true⟩

section Trampoline
variable {page : Page} {esp ret : Nat} {c : Cpu}

theorem Above.load (h : Above m page v esp) (hlo : v * PGSIZE ≤ esp) {a o n : Nat} (ha : a = v * PGSIZE + o)
    (hesp : esp + 4 ≤ a) (hfit : o + n ≤ PGSIZE) : m.load a n = some (page.getBytes o n) ∧ m.kload a n = some (page.getBytes o n) := by
  have hcell : ∀ j < n, m (a + j) = some ⟨page.byte (o + j), true⟩ := fun j hj => by
    rw [h (a + j) (by omega) (by omega), show a + j - v * PGSIZE = o + j by omega]
  exact ⟨Space.load_page hcell, Space.kload_page hcell⟩

theorem Above.loadCode (h : Above m page v esp) (hlo : v * PGSIZE ≤ esp) (hfits : esp + 24 ≤ v * PGSIZE + PGSIZE)
    (hcode : page.getBytes (PGSIZE - 8) 8 = exitCode) {a i n : Nat} (ha : a = v * PGSIZE + PGSIZE - 8 + i) (hin : i + n ≤ 8) :
    m.load a n = some ((exitCode.drop i).take n) := by
  have hpage : 24 ≤ PGSIZE := by decide
  rw [(h.load hlo (o := PGSIZE - 8 + i) (by omega) (by omega) (by omega)).1, ← hcode]
  congr 1
  refine List.ext_getElem (by simp; omega) fun j hj _ => ?_
  simp [Buffer.getBytes, Nat.add_assoc]

theorem Above.store (h : Above m page v esp) (bs : List UInt8) (hlen : bs.length = 4) {m' : Space} (hstore : m.store esp bs = some m') :
    Above m' page v esp := by
  intro a hlo hhi
  cases hload : m.load esp bs.length with
  | none => simp [Space.store, hload] at hstore
  | some old =>
    simp only [Space.store, hload, Option.bind_eq_bind, Option.bind_some, Option.pure_def, Option.some.injEq] at hstore
    subst hstore
    dsimp only
    rw [if_neg (by omega), h a hlo hhi]

theorem run_exitCode (h : Above c.mem page v esp) (hhigh : v < KERNPAGE) (hlo : v * PGSIZE ≤ esp)
    (hfits : esp + 24 ≤ v * PGSIZE + PGSIZE) (hcode : page.getBytes (PGSIZE - 8) 8 = exitCode)
    (heip : c.eip.toNat = v * PGSIZE + PGSIZE - 8) (hesp : c.esp.toNat = esp + 4) {old : List UInt8}
    (hold : c.mem.load esp 4 = some old) (left : Nat) :
    ∃ c', c.run (left + 3) = some (T_SYSCALL, c') ∧ c'.eax = SYS_exit ∧ c'.esp.toNat = esp ∧ Above c'.mem page v esp := by
  have htop : v * PGSIZE + PGSIZE < 2 ^ 31 + 1 := by
    simp only [KERNPAGE, KERNBASE, PGSIZE] at *
    omega
  have hpc : ∀ i : UInt32, i.toNat ≤ 8 → (c.eip + i).toNat = v * PGSIZE + PGSIZE - 8 + i.toNat := fun i hi => by
    rw [toNat_add_of_lt (by omega), heip]
  have hsp : (c.esp - 4).toNat = esp := by
    rw [UInt32.toNat_sub_of_le _ _ (by rw [UInt32.le_iff_toNat_le, hesp]; exact Nat.le_add_left _ _), hesp]
    rfl
  obtain ⟨m', hstore⟩ : ∃ m', c.mem.store esp (toLe 4 c.eax.toNat) = some m' := by
    simp [Space.store, hold]
  have h' := h.store _ (length_toLe 4 _) hstore
  have hpush : c.fetch = some (.push, 1) := by
    have hop := h.loadCode hlo hfits hcode (i := 0) (n := 1) heip (by decide)
    simp [Cpu.fetch, hop, exitCode]
  -- The other two instructions are fetched after the push, which is below them.
  have hmov : ({ c with eip := c.eip + 1, esp := c.esp - 4, mem := m' } : Cpu).fetch = some (.mov 2, 5) := by
    have hop := h'.loadCode hlo hfits hcode (i := 1) (n := 1) (hpc 1 (by decide)) (by decide)
    have himm := h'.loadCode hlo hfits hcode (i := 2) (n := 4) (hpc 2 (by decide)) (by decide)
    have hnext : c.eip + 1 + 1 = c.eip + 2 := by rw [UInt32.add_assoc]; rfl
    simp only [Cpu.fetch, hop, hnext, himm, exitCode, List.drop, List.take, Option.bind_eq_bind, Option.bind_some]
    rfl
  have hint : ({ c with eip := c.eip + 1 + 5, esp := c.esp - 4, eax := 2, mem := m' } : Cpu).fetch = some (.int 64, 2) := by
    have hop := h'.loadCode hlo hfits hcode (i := 6) (n := 1) (hpc 6 (by decide)) (by decide)
    have himm := h'.loadCode hlo hfits hcode (i := 7) (n := 1) (hpc 7 (by decide)) (by decide)
    have hat : c.eip + 1 + 5 = c.eip + 6 := by rw [UInt32.add_assoc]; rfl
    have hnext : c.eip + 6 + 1 = c.eip + 7 := by rw [UInt32.add_assoc]; rfl
    simp only [Cpu.fetch, hat, hop, hnext, himm, exitCode, List.drop, List.take, Option.bind_eq_bind, Option.bind_some]
    rfl
  refine ⟨{ c with eip := c.eip + 1 + 5 + 2, esp := c.esp - 4, eax := 2, mem := m' }, ?_, rfl, hsp, h'⟩
  rw [Cpu.run, hpush, Option.bind_eq_bind, Option.bind_some]
  dsimp only
  rw [hsp, hstore, Option.bind_eq_bind, Option.bind_some, Cpu.run, hmov, Option.bind_eq_bind, Option.bind_some]
  dsimp only
  rw [Cpu.run, hint]
  rfl

theorem sysExit_argc {argc sz : Nat} (h : Above c.mem page v esp) (hhigh : v < KERNPAGE) (hlo : v * PGSIZE ≤ esp)
    (hfits : esp + 24 ≤ v * PGSIZE + PGSIZE) (hargc : page.word 4 (esp - v * PGSIZE + 4) = argc) (hesp : c.esp.toNat = esp)
    (hsz : v * PGSIZE + PGSIZE ≤ sz) : sysExit sz c = .ok (some (.ofNat argc)) := by
  have htop : v * PGSIZE + PGSIZE < 2 ^ 31 + 1 := by
    simp only [KERNPAGE, KERNBASE, PGSIZE] at *
    omega
  have haddr : (c.esp + 4 + 4 * 0).toNat = esp + 4 := by
    have : (c.esp + 4).toNat = c.esp.toNat + 4 := toNat_add_of_lt (by rw [hesp, show (4 : UInt32).toNat = 4 from rfl]; omega)
    rw [show (4 * 0 : UInt32) = 0 from rfl, UInt32.add_zero, this, hesp]
  have hend : (c.esp + 4 + 4 * 0 + 4).toNat = esp + 8 := by
    rw [toNat_add_of_lt (by rw [haddr, show (4 : UInt32).toNat = 4 from rfl]; omega), haddr]
    rfl
  have hload := (h.load hlo (a := esp + 4) (o := esp - v * PGSIZE + 4) (n := 4) (by omega) le_rfl (by omega)).2
  rw [sysExit, argint, fetchint, if_neg (by omega), haddr, hload]
  dsimp only
  rw [← hargc]
  rfl

end Trampoline

variable {eip eax : UInt32} {c : Cpu} {p : Proc}

theorem Entered.exitStatus (h : Entered argc k d v) (hm : k.Untouched m) (hret : (Cpu.mk eip k.proc.tf.esp eax m).ret = some c)
    (hkilled : p.killed = false) (hsz : k.proc.sz ≤ p.sz) (left : Nat) :
    exitStatus p (left + 3) c = .ok (some (.ofNat argc)) := by
  obtain ⟨q, hq⟩ := ret_maps h hm hret
  obtain ⟨hpc, hargc, hcode⟩ := h.frame q hq
  have hhigh := h.high
  have hlo := h.low
  have hfits := h.fits
  have htop : v * PGSIZE + PGSIZE < 2 ^ 31 + 1 := by
    simp only [KERNPAGE, KERNBASE, PGSIZE] at *
    omega
  have hmem : ∀ a, k.proc.tf.esp.toNat ≤ a → a < v * PGSIZE + PGSIZE → m a = some ⟨(k.vm.mem q).byte (a - v * PGSIZE), true⟩ :=
    fun a ha hlt => (hm a ha (h.sz.symm ▸ hlt)).trans (space_of_maps h.pgdir hq (hlo.trans ha) hlt)
  have hload : m.load k.proc.tf.esp.toNat 4 = some ((k.vm.mem q).getBytes (k.proc.tf.esp.toNat - v * PGSIZE) 4) :=
    Space.load_page fun j hj => by
      rw [hmem _ (by omega) (by omega), show k.proc.tf.esp.toNat + j - v * PGSIZE = k.proc.tf.esp.toNat - v * PGSIZE + j by omega]
  have hword : ofLe ((k.vm.mem q).getBytes (k.proc.tf.esp.toNat - v * PGSIZE) 4) = v * PGSIZE + PGSIZE - 8 := hpc
  simp only [Cpu.ret, hload, hword, Option.bind_eq_bind, Option.bind_some, Option.pure_def, Option.some.injEq] at hret
  subst hret
  have habove : Above m (k.vm.mem q) v k.proc.tf.esp.toNat := fun a ha hlt => hmem a (by omega) hlt
  have heip : (UInt32.ofNat (v * PGSIZE + PGSIZE - 8)).toNat = v * PGSIZE + PGSIZE - 8 :=
    UInt32.toNat_ofNat_of_lt' (by show _ < 2 ^ 32; omega)
  have hesp : (k.proc.tf.esp + 4).toNat = k.proc.tf.esp.toNat + 4 :=
    toNat_add_of_lt (by rw [show (4 : UInt32).toNat = 4 from rfl]; omega)
  obtain ⟨c', hrun, heax, hesp', habove'⟩ :=
    run_exitCode (c := ⟨.ofNat (v * PGSIZE + PGSIZE - 8), k.proc.tf.esp + 4, eax, m⟩) habove hhigh hlo hfits hcode heip hesp hload left
  rw [Xv6.exitStatus, hrun]
  dsimp only
  rw [trap, if_pos rfl, hkilled, if_neg (by decide), if_pos heax]
  exact sysExit_argc habove' hhigh hlo hfits hargc hesp' (h.sz ▸ hsz)

theorem exec_entered {b : Build} {k k' : Kernel} {path : List UInt8} {argv : List (List UInt8)}
    (hown : ∀ cur, k.proc.pgdir = some cur → cur.Owns (· ∉ k.vm.free)) (hexec : k.exec b path argv = .ok (0, k')) :
    ∃ d v, Entered argv.length k' d v := by
  unfold exec at hexec
  cases hcur : k.proc.pgdir with
  | none =>
    rw [hcur] at hexec
    cases hexec
  | some cur =>
    rw [hcur] at hexec
    exact (execIn_entered (hown cur hcur)).of_eq_ok hexec rfl

/-- A process in which `main` returns exits with the result of `main` just if that is the number of its arguments. -/
theorem main_status_iff {b : Build} {k k' : Kernel} {path : List UInt8} {argv : List (List UInt8)}
    (hown : ∀ cur, k.proc.pgdir = some cur → cur.Owns (· ∉ k.vm.free)) (hexec : k.exec b path argv = .ok (0, k'))
    (hm : k'.Untouched m) (hret : (Cpu.mk eip k'.proc.tf.esp eax m).ret = some c) (hkilled : p.killed = false)
    (hsz : k'.proc.sz ≤ p.sz) {left : Nat} (hleft : 3 ≤ left) :
    exitStatus p left c = .ok (some eax) ↔ eax = .ofNat argv.length := by
  obtain ⟨d, v, h⟩ := exec_entered hown hexec
  obtain ⟨n, rfl⟩ := Nat.exists_eq_add_of_le' hleft
  rw [h.exitStatus hm hret hkilled hsz n]
  constructor
  · intro heq
    cases heq
    rfl
  · intro heq
    rw [heq]

/-! ### A program with one argument -/

theorem onePage_owns {P : Nat → Prop} (hdir : P 600) (htable : P 601) (hpage : P 602) : onePage.Owns P := by
  refine ⟨hdir, fun i t ht => ?_, fun u e he _ => ?_⟩
  · unfold onePage at ht
    dsimp only at ht
    split at ht
    · cases ht
      exact htable
    · cases ht
  · unfold onePage at he
    dsimp only at he
    split at he
    · cases he
      exact hpage
    · cases he

theorem main_returns : ∃ k k' : Kernel, (∀ cur, k.proc.pgdir = some cur → cur.Owns (· ∉ k.vm.free)) ∧
    k.exec plain [SLASH, 97] [[97]] = .ok (0, k') ∧ k'.proc.sz = 8192 ∧
    ∀ eip eax, ∃ c, (Cpu.mk eip k'.proc.tf.esp eax k'.space).ret = some c := by
  obtain ⟨fs, fs₄, free, vm, d, q, h⟩ := exec_atStart
  have hkend := h.kend
  obtain ⟨k', hstart, hpgdir, hsz, hesp⟩ := @start_runs d onePage 1 q
    { caller fs₄ free with vm := vm, proc := { (caller fs₄ free).proc with retAdd := 8168 } } (by decide)
    (fun _ _ _ => Vm.uva2ka_of_maps h.stack.maps) h.page (hkend ▸ by decide)
    (onePage_owns ⟨hkend ▸ by decide, by decide⟩ ⟨hkend ▸ by decide, by decide⟩ ⟨hkend ▸ by decide, by decide⟩) 8192 0 [SLASH, 97]
  refine ⟨caller fs free, k', fun cur hcur => ?_, (h.exec [[97]]).trans hstart, hsz, fun eip eax => ?_⟩
  · cases hcur
    have hlow : ∀ p, p < 1000 → p ∉ (caller fs free).vm.free := fun p hp hmem => absurd (h.high p hmem) (Nat.not_le.mpr hp)
    exact onePage_owns (hlow 600 (by decide)) (hlow 601 (by decide)) (hlow 602 (by decide))
  · have hload : k'.space.load 8144 4 = some ((k'.vm.mem q).getBytes 4048 4) := Space.load_page fun j hj => by
      rw [space_of_maps hpgdir h.stack.maps (by simp only [PGSIZE]; omega) (by simp only [PGSIZE]; omega)]
      rw [show 8144 + j - 1 * PGSIZE = 4048 + j by simp only [PGSIZE]; omega]
    exact ⟨_, by simp only [Cpu.ret, hesp, show (UInt32.ofNat (1 * PGSIZE + 4048)).toNat = 8144 from rfl, hload, Option.bind_eq_bind, Option.bind_some]; rfl⟩

theorem main_status_iff_one : ∃ (k' : Kernel) (c : Cpu), (Cpu.mk 0 k'.proc.tf.esp 1 k'.space).ret = some c ∧
    exitStatus { sz := 8192 } 3 c = .ok (some 1) := by
  obtain ⟨k, k', hown, hexec, hsz, hret⟩ := main_returns
  obtain ⟨c, hc⟩ := hret 0 1
  exact ⟨k', c, hc, (main_status_iff hown hexec (fun _ _ _ => rfl) hc rfl hsz.le le_rfl).mpr rfl⟩

/-- `main` returns 5, and the process exits with status 1. -/
theorem main_status_lost : ∃ (k k' : Kernel) (c : Cpu), k.exec plain [SLASH, 97] [[97]] = .ok (0, k') ∧
    (Cpu.mk 0 k'.proc.tf.esp 5 k'.space).ret = some c ∧ exitStatus { sz := 8192 } 3 c = .ok (some 1) := by
  obtain ⟨k, k', hown, hexec, hsz, hret⟩ := main_returns
  obtain ⟨c, hc⟩ := hret 0 5
  obtain ⟨d, v, h⟩ := exec_entered hown hexec
  exact ⟨k, k', c, hexec, hc, h.exitStatus (fun _ _ _ => rfl) hc rfl hsz.le 0⟩

end Kernel
end Xv6
