import Xv6.Signal

/-! What traps, system calls and signals do to a process: the frame that is saved when a handler is called, the frame
    that goes back to user mode, and the return address that a handler gets. -/

namespace Xv6
open Function (update update_idem update_of_ne update_self)
open Outcome (ok_bind)
open Proc
open Machine

/-! ### Saving and restoring -/

namespace Proc
variable {p : Proc}

theorem restoreTf_eq (p : Proc) : p.restoreTf = { p with tf := p.backupTf } := rfl

/-- What `do_signal` can do: call a user handler, or leave all but the signal state alone. -/
inductive Signalled (p : Proc) : Proc × List Push → Prop
  | quiet (pending : UInt32) (handling : Bool) (h : p.handlingSignal = true → handling = true) :
      Signalled p ({ p with pending := pending, handlingSignal := handling }, [])
  | handler (signum : Fin NUMSIG) (pending : UInt32) (user : p.tf.cs &&& 3 = DPL_USER) (idle : p.handlingSignal = false) :
      Signalled p ({ p with
          pending := pending, handlingSignal := true, backupTf := p.tf
          tf := { p.tf with esp := p.tf.esp - 4 - 4, eip := p.handlers signum } },
        [(p.tf.esp - 4, UInt32.ofNat signum), (p.tf.esp - 4 - 4, p.retAdd)])

theorem doSignal_signalled (p : Proc) : Signalled p p.doSignal := by
  unfold doSignal
  split
  · rename_i h
    obtain ⟨user, -, idle⟩ := h
    have hquiet : ∀ handling : Bool, p.handlingSignal = true → handling = true := fun _ h => by
      rw [idle] at h
      cases h
    dsimp only
    split
    · exact .quiet p.pending true (hquiet _)
    · rename_i signum _
      split
      · exact .quiet _ false (hquiet _)
      · exact .handler signum _ user idle
  · exact .quiet p.pending p.handlingSignal id

end Proc

/-- In the registers alone there is nothing that makes a frame one of user mode. -/
theorem UserFrame.regs {tf : TrapFrame} (h : UserFrame tf) (eax eip esp : UInt32) :
    UserFrame { tf with eax := eax, eip := eip, esp := esp } := ⟨h.cs, h.ds, h.es, h.ss, h.intr⟩

namespace Procs
variable {s s' : Procs} {a : Act} {i k : ProcIdx}

/-! ### Stores through the stack pointer -/

section Stores
variable {poke : Poke}

theorem toNat_sub_four {esp : UInt32} (h : 4 ≤ esp.toNat) : (esp - 4).toNat = esp.toNat - 4 :=
  UInt32.toNat_sub_of_le _ _ (UInt32.le_iff_toNat_le.mpr (show (4 : UInt32).toNat ≤ _ from h))

theorem push_eq {p : Proc} {word : UInt32} (h4 : 4 ≤ p.tf.esp.toNat) (hsz : p.tf.esp.toNat ≤ p.sz) :
    (s.setProc i p).push poke i word =
      .ok ((p.tf.esp - 4, word), s.setProc i { p with tf := { p.tf with esp := p.tf.esp - 4 } }) := by
  have hin : (p.tf.esp - 4).toNat + 4 ≤ p.sz := by
    rw [toNat_sub_four h4]
    omega
  simp only [push, store, setProc, update_self, update_idem, if_pos hin]
  rfl

/-- On a stack of the process, `do_signal` does to the table what it does to the process. -/
theorem doSignal_eq (h : s.OnStack (.ret i)) :
    s.doSignal poke i = .ok ((s.proc i).doSignal.2, s.setProc i (s.proc i).doSignal.1) := by
  rw [OnStack, Proc.doSignal] at h
  rw [doSignal, Proc.doSignal]
  dsimp only at h ⊢
  split_ifs at h ⊢ with hc
  · cases hfirst : firstPending (s.proc i).pending with
    | none => rfl
    | some signum =>
      simp only [hfirst] at h ⊢
      split_ifs at h ⊢ with hdfl
      · rfl
      · obtain ⟨h8, hsz⟩ := h (fun hnil => by cases hnil)
        have hesp : ((s.proc i).tf.esp - 4).toNat = (s.proc i).tf.esp.toNat - 4 := toNat_sub_four (by omega)
        have h4 : 4 ≤ (s.proc i).tf.esp.toNat := by omega
        have hsecond : 4 ≤ ((s.proc i).tf.esp - 4).toNat ∧ ((s.proc i).tf.esp - 4).toNat ≤ (s.proc i).sz := by omega
        rw [push_eq (by exact h4) (by exact hsz), ok_bind]
        dsimp only
        rw [push_eq hsecond.1 hsecond.2, ok_bind]
        simp only [setProc, update_self, update_idem]
        rfl
  · rw [setProc, Function.update_eq_self]

theorem stepOn_eq (h : s.OnStack a) : s.stepOn poke a = s.step a := by
  cases a with
  | ret i =>
    rw [stepOn, step, doSignal_eq h]
    rfl
  | enter i tf | interrupt i | sys i c | exit i status => rfl

end Stores

/-! ### What a step does to a slot -/

structure SameHistory (s s' : Procs) (k : ProcIdx) : Prop where
  saved : s'.saved k = s.saved k
  image : s'.image k = s.image k
  lastExec : s'.lastExec k = s.lastExec k
  execd : s'.execd k = s.execd k

theorem SameHistory.refl (s : Procs) (k : ProcIdx) : SameHistory s s k := ⟨rfl, rfl, rfl, rfl⟩

/-- `allocproc`, called by `fork`, finds this slot. -/
def Allocates (s : Procs) (a : Act) (k : ProcIdx) : Prop :=
  ∃ i r, a = .sys i (.fork r) ∧ ((List.finRange NPROC).find? fun j => (s.proc j).state = .unused) = some k

inductive SlotStep (s : Procs) (a : Act) (s' : Procs) (k : ProcIdx) : Prop
  /-- Others may send a signal, or exit and leave their children to `initproc`. -/
  | rest (pending : UInt32) (parent : Option ProcIdx)
      (proc : s'.proc k = { s.proc k with pending := pending, parent := parent }) (phase : s'.phase k = s.phase k)
      (hist : SameHistory s s' k)
  | enter (tf : TrapFrame) (user : UserFrame tf) (live : s.Live k) (inUser : s.phase k = .user)
      (proc : s'.proc k = { s.proc k with tf := tf }) (phase : s'.phase k = .kernel) (hist : SameHistory s s' k)
  | interrupt (live : s.Live k) (inKernel : s.phase k = .kernel) (proc : s'.proc k = s.proc k)
      (phase : s'.phase k = .leaving) (hist : SameHistory s s' k)
  | call (eax : UInt32) (sz : Nat) (pending : UInt32) (handlers : Fin NUMSIG → UInt32) (live : s.Live k)
      (inKernel : s.phase k = .kernel)
      (proc : s'.proc k = { s.proc k with
        sz := sz, pending := pending, handlers := handlers, tf := { (s.proc k).tf with eax := eax } })
      (phase : s'.phase k = .leaving) (hist : SameHistory s s' k)
  | exec (eip esp tramp : UInt32) (sz : Nat) (live : s.Live k) (inKernel : s.phase k = .kernel)
      (proc : s'.proc k = { s.proc k with
        retAdd := tramp, sz := sz, tf := { (s.proc k).tf with eip := eip, esp := esp, eax := 0 } })
      (phase : s'.phase k = .leaving) (saved : s'.saved k = s.saved k) (image : s'.image k = some tramp)
      (lastExec : s'.lastExec k = tramp) (execd : s'.execd k = true)
  | execLate (tramp : UInt32) (act : a = .sys k (.exec (.failedLate tramp))) (live : s.Live k)
      (inKernel : s.phase k = .kernel)
      (proc : s'.proc k = { s.proc k with retAdd := tramp, tf := { (s.proc k).tf with eax := 0xffffffff } })
      (phase : s'.phase k = .leaving) (saved : s'.saved k = s.saved k) (image : s'.image k = s.image k)
      (lastExec : s'.lastExec k = tramp) (execd : s'.execd k = s.execd k)
  | sigreturn (act : a = .sys k .sigreturn) (live : s.Live k) (inKernel : s.phase k = .kernel)
      (proc : s'.proc k = { s.proc k with handlingSignal := false, tf := { (s.proc k).backupTf with eax := 0 } })
      (phase : s'.phase k = .leaving) (hist : SameHistory s s' k)
  /-- The slot is free or a zombie now. -/
  | dead (act : s.Live k → ∃ status, a = .exit k status) (gone : ¬s'.Live k)
      (backupTf : (s'.proc k).backupTf = (s.proc k).backupTf) (retAdd : (s'.proc k).retAdd = (s.proc k).retAdd)
      (tf : (s'.proc k).tf = (s.proc k).tf) (phase : s'.phase k = s.phase k) (hist : SameHistory s s' k)
  /-- `fork` of process `i` has put a child here. -/
  | born (i : ProcIdx) (act : s.Allocates a k) (live : s.Live i) (inKernel : s.phase i = .kernel) (free : ¬s.Live k)
      (tf : (s'.proc k).tf = { (s.proc i).tf with eax := 0 }) (backupTf : (s'.proc k).backupTf = (s.proc k).backupTf)
      (retAdd : (s'.proc k).retAdd = (s.proc k).retAdd) (phase : s'.phase k = .leaving)
      (saved : s'.saved k = s.saved k) (image : s'.image k = s.image i) (lastExec : s'.lastExec k = s.lastExec k)
      (execd : s'.execd k = false)
  | ret (r : Proc × List Push) (act : a = .ret k) (live : s.Live k) (leaving : s.phase k = .leaving) (signalled : Signalled (s.proc k) r)
      (proc : s'.proc k = r.1) (phase : s'.phase k = .user) (saved : s'.saved k = (s.saved k || !r.2.isEmpty))
      (image : s'.image k = s.image k) (lastExec : s'.lastExec k = s.lastExec k) (execd : s'.execd k = s.execd k)

@[simp] theorem proc_setProc_self (s : Procs) (i : ProcIdx) (p : Proc) : (s.setProc i p).proc i = p := update_self ..

theorem proc_setProc_of_ne (s : Procs) {i k : ProcIdx} (h : k ≠ i) (p : Proc) : (s.setProc i p).proc k = s.proc k :=
  update_of_ne h _ _

theorem SlotStep.untouched (proc : s'.proc k = s.proc k) (phase : s'.phase k = s.phase k) (hist : SameHistory s s' k) :
    SlotStep s a s' k := .rest (s.proc k).pending (s.proc k).parent proc phase hist

/-! System calls -/

def afterCall (s : Procs) (i : ProcIdx) (c : Call) : Procs :=
  { s.syscall i c with phase := update (s.syscall i c).phase i .leaving }

theorem afterCall_proc_self (c : Call) : (s.afterCall i c).proc i =
    { (s.call i c).2.proc i with tf := { ((s.call i c).2.proc i).tf with eax := (s.call i c).1 } } := update_self ..

theorem afterCall_proc_of_ne (c : Call) (h : k ≠ i) : (s.afterCall i c).proc k = (s.call i c).2.proc k :=
  update_of_ne h _ _

theorem afterCall_phase_self (c : Call) : (s.afterCall i c).phase i = .leaving := update_self ..

theorem afterCall_phase_of_ne (c : Call) (h : k ≠ i) : (s.afterCall i c).phase k = (s.call i c).2.phase k :=
  update_of_ne h _ _

theorem SlotStep.of_call {c : Call} (live : s.Live i) (inKernel : s.phase i = .kernel)
    (proc : ∃ sz pending handlers,
      (s.call i c).2.proc i = { s.proc i with sz := sz, pending := pending, handlers := handlers })
    (hist : SameHistory s (s.call i c).2 i) : SlotStep s a (s.afterCall i c) i := by
  obtain ⟨sz, pending, handlers, proc⟩ := proc
  refine .call (s.call i c).1 sz pending handlers live inKernel ?_ (afterCall_phase_self c)
    ⟨hist.saved, hist.image, hist.lastExec, hist.execd⟩
  rw [afterCall_proc_self, proc]

theorem SlotStep.of_ne {c : Call} (hk : k ≠ i) (proc : (s.call i c).2.proc k = s.proc k)
    (phase : (s.call i c).2.phase k = s.phase k) (hist : SameHistory s (s.call i c).2 k) :
    SlotStep s a (s.afterCall i c) k := by
  refine .untouched ?_ ?_ ⟨hist.saved, hist.image, hist.lastExec, hist.execd⟩
  · rw [afterCall_proc_of_ne c hk, proc]
  · rw [afterCall_phase_of_ne c hk, phase]

theorem SlotStep.of_same {c : Call} {r : UInt32} (hcall : s.call i c = (r, s)) (live : s.Live i)
    (inKernel : s.phase i = .kernel) (k : ProcIdx) : SlotStep s a (s.afterCall i c) k := by
  have hhist : SameHistory s (s.call i c).2 k := by
    rw [hcall]
    exact .refl s k
  by_cases hk : k = i
  · subst hk
    exact .of_call live inKernel ⟨_, _, _, by rw [hcall]⟩ hhist
  · exact .of_ne hk (by rw [hcall]) (by rw [hcall]) hhist

theorem sigsend_slot (live : s.Live i) (inKernel : s.phase i = .kernel) (pid signum : UInt32) (k : ProcIdx) :
    SlotStep s a (s.afterCall i (.sigsend pid signum)) k := by
  by_cases hnum : NUMSIG ≤ signum.toNat
  · exact .of_same (show s.call i (.sigsend pid signum) = _ from if_pos hnum) live inKernel k
  · cases hfind : (List.finRange NPROC).find? fun j => (s.proc j).pid = pid with
    | none =>
      have hcall : s.call i (.sigsend pid signum) = (0xffffffff, s) := by simp only [call, sigsend, if_neg hnum, hfind]
      exact .of_same hcall live inKernel k
    | some j =>
      have hcall : s.call i (.sigsend pid signum) =
          (0, s.setProc j { s.proc j with pending := (s.proc j).pending ||| (1 <<< signum) }) := by
        simp only [call, sigsend, if_neg hnum, hfind]
      have hhist : SameHistory s (s.call i (.sigsend pid signum)).2 k := by
        rw [hcall]
        exact ⟨rfl, rfl, rfl, rfl⟩
      by_cases hki : k = i
      · subst hki
        refine .of_call live inKernel ?_ hhist
        rw [hcall]
        by_cases hkj : k = j
        · subst hkj
          exact ⟨_, _, _, proc_setProc_self ..⟩
        · exact ⟨_, _, _, proc_setProc_of_ne s hkj _⟩
      · by_cases hkj : k = j
        · subst hkj
          refine .rest ((s.proc k).pending ||| (1 <<< signum)) (s.proc k).parent ?_ ?_ ⟨hhist.saved, hhist.image, hhist.lastExec, hhist.execd⟩
          · rw [afterCall_proc_of_ne _ hki, hcall]
            exact proc_setProc_self ..
          · rw [afterCall_phase_of_ne _ hki, hcall]
            rfl
        · refine .of_ne hki ?_ ?_ hhist
          · rw [hcall]
            exact proc_setProc_of_ne s hkj _
          · rw [hcall]
            rfl

theorem fork_slot (live : s.Live i) (inKernel : s.phase i = .kernel) (r : ForkResult) (k : ProcIdx) :
    SlotStep s (.sys i (.fork r)) (s.afterCall i (.fork r)) k := by
  cases hfind : (List.finRange NPROC).find? fun j => (s.proc j).state = .unused with
  | none =>
    have hcall : s.call i (.fork r) = (0xffffffff, s) := by simp only [call, fork, hfind]
    exact .of_same hcall live inKernel k
  | some j =>
    have hfree : (s.proc j).state = .unused := by simpa using List.find?_some hfind
    have hij : i ≠ j := fun heq => live.1 (heq ▸ hfree)
    -- The three outcomes write the new slot and nothing else of the table.
    have hrest : ∀ k, k ≠ j → (s.call i (.fork r)).2.proc k = s.proc k ∧ (s.call i (.fork r)).2.phase k = s.phase k ∧
        SameHistory s (s.call i (.fork r)).2 k := fun k hk => by
      cases r <;> simp only [call, fork, hfind]
      · exact ⟨update_of_ne hk _ _, update_of_ne hk _ _, rfl, update_of_ne hk _ _, rfl,
          update_of_ne hk _ _⟩
      · exact ⟨update_of_ne hk _ _, rfl, rfl, rfl, rfl, rfl⟩
      · exact ⟨update_of_ne hk _ _, rfl, rfl, rfl, rfl, rfl⟩
    by_cases hki : k = i
    · subst hki
      exact .of_call live inKernel ⟨_, _, _, (hrest k hij).1⟩ (hrest k hij).2.2
    · by_cases hkj : k = j
      · subst hkj
        have hproc := afterCall_proc_of_ne (s := s) (.fork r) hki
        have hphase := afterCall_phase_of_ne (s := s) (.fork r) hki
        have hdead : ¬s.Live k := fun hlive => hlive.1 hfree
        cases r with
        | ok =>
          refine .born i ⟨i, _, rfl, hfind⟩ live inKernel hdead ?_ ?_ ?_ ?_ ?_ ?_ ?_ ?_
          · rw [hproc]
            simp [call, fork, hfind, setProc]
          · rw [hproc]
            simp [call, fork, hfind, setProc, setDefaultHandlers]
          · rw [hproc]
            simp [call, fork, hfind, setProc, setDefaultHandlers]
          · rw [hphase]
            simp [call, fork, hfind]
          · simp [afterCall, syscall, call, fork, hfind, setProc]
          · simp [afterCall, syscall, call, fork, hfind, setProc]
          · simp [afterCall, syscall, call, fork, hfind, setProc]
          · simp [afterCall, syscall, call, fork, hfind, setProc]
        | noStack | noMemory =>
          refine .dead (fun hlive => absurd hlive hdead) ?_ ?_ ?_ ?_ ?_ ?_
          · simp [Live, hproc, call, fork, hfind, setProc]
          · simp [hproc, call, fork, hfind, setProc, setDefaultHandlers]
          · simp [hproc, call, fork, hfind, setProc, setDefaultHandlers]
          · simp [hproc, call, fork, hfind, setProc, setDefaultHandlers]
          · simp [hphase, call, fork, hfind, setProc]
          · constructor <;> simp [afterCall, syscall, call, fork, hfind, setProc]
      · obtain ⟨hproc, hphase, hhist⟩ := hrest k hkj
        exact .of_ne hki hproc hphase hhist

theorem call_slot (live : s.Live i) (inKernel : s.phase i = .kernel) (c : Call) (reaps : s.Reaps i c) (k : ProcIdx) :
    SlotStep s (.sys i c) (s.afterCall i c) k := by
  cases c with
  | fork r => exact fork_slot live inKernel r k
  | wait child =>
    obtain ⟨-, hzombie⟩ := reaps
    have hne : i ≠ child := fun heq => live.2 (heq ▸ hzombie)
    by_cases hki : k = i
    · subst hki
      exact .of_call live inKernel ⟨_, _, _, update_of_ne hne _ _⟩ ⟨rfl, rfl, rfl, rfl⟩
    · by_cases hkc : k = child
      · subst hkc
        have hproc := afterCall_proc_of_ne (s := s) (.wait k) hki
        refine .dead (fun hlive => absurd hzombie hlive.2) ?_ ?_ ?_ ?_ (afterCall_phase_of_ne _ hki) ⟨rfl, rfl, rfl, rfl⟩
        · simp [Live, hproc, call, wait]
        · simp [hproc, call, wait]
        · simp [hproc, call, wait]
        · simp [hproc, call, wait]
      · exact .of_ne hki (update_of_ne hkc _ _) rfl ⟨rfl, rfl, rfl, rfl⟩
  | exec r =>
    by_cases hki : k = i
    · subst hki
      cases r with
      | ok eip esp tramp sz =>
        refine .exec eip esp tramp sz live inKernel ?_ (afterCall_phase_self _) rfl ?_ ?_ ?_
        · rw [afterCall_proc_self]
          simp [call, exec]
        · simp [afterCall, syscall, call, exec, setProc]
        · simp [afterCall, syscall, call, exec, setProc]
        · simp [afterCall, syscall, call, exec, setProc]
      | failed => exact .of_call live inKernel ⟨_, _, _, rfl⟩ (.refl s k)
      | failedLate tramp =>
        refine .execLate tramp rfl live inKernel ?_ (afterCall_phase_self _) rfl rfl ?_ rfl
        · rw [afterCall_proc_self]
          simp [call, exec]
        · simp [afterCall, syscall, call, exec, setProc]
    · cases r with
      | ok eip esp tramp sz =>
        exact .of_ne hki (update_of_ne hki _ _) rfl
          ⟨rfl, update_of_ne hki _ _, update_of_ne hki _ _, update_of_ne hki _ _⟩
      | failed => exact .of_ne hki rfl rfl (.refl s k)
      | failedLate tramp =>
        exact .of_ne hki (update_of_ne hki _ _) rfl ⟨rfl, rfl, update_of_ne hki _ _, rfl⟩
  | signal signum handler =>
    by_cases hki : k = i
    · subst hki
      refine .of_call live inKernel ?_ ⟨rfl, rfl, rfl, rfl⟩
      have hproc : (s.call k (.signal signum handler)).2.proc k = ((s.proc k).sysSignal signum handler).2 :=
        update_self ..
      rw [hproc, sysSignal]
      split
      · exact ⟨_, _, _, rfl⟩
      · rw [Proc.signal]
        split <;> exact ⟨_, _, _, rfl⟩
    · exact .of_ne hki (update_of_ne hki _ _) rfl ⟨rfl, rfl, rfl, rfl⟩
  | sigsend pid signum => exact sigsend_slot live inKernel pid signum k
  | sigreturn =>
    by_cases hki : k = i
    · subst hki
      refine .sigreturn rfl live inKernel ?_ (afterCall_phase_self _) ⟨rfl, rfl, rfl, rfl⟩
      rw [afterCall_proc_self]
      simp [call, Proc.sigreturn, restoreTf_eq]
    · exact .of_ne hki (update_of_ne hki _ _) rfl ⟨rfl, rfl, rfl, rfl⟩
  | badArgs => exact .of_same rfl live inKernel k
  | other result sz =>
    by_cases hnum : 0 < (s.proc i).tf.eax ∧ (s.proc i).tf.eax < 28
    · have hcall : s.call i (.other result sz) = (result, s.setProc i { s.proc i with sz := sz }) := if_pos hnum
      by_cases hki : k = i
      · subst hki
        refine .of_call live inKernel ⟨sz, (s.proc k).pending, (s.proc k).handlers, ?_⟩ ?_
        · rw [hcall]
          exact proc_setProc_self ..
        · rw [hcall]
          exact ⟨rfl, rfl, rfl, rfl⟩
      · refine .of_ne hki ?_ ?_ ?_
        · rw [hcall]
          exact proc_setProc_of_ne s hki _
        · rw [hcall]
          rfl
        · rw [hcall]
          exact ⟨rfl, rfl, rfl, rfl⟩
    · have hcall : s.call i (.other result sz) = (0xffffffff, s) := if_neg hnum
      exact .of_same hcall live inKernel k

theorem step_slot (h : s.step a = .ok s') (k : ProcIdx) : SlotStep s a s' k := by
  cases a with
  | enter i tf =>
    rw [step] at h
    split at h
    · rename_i hc
      obtain ⟨live, inUser, user⟩ := hc
      cases h
      by_cases hk : k = i
      · subst hk
        exact .enter tf user live inUser (proc_setProc_self ..) (update_self ..) ⟨rfl, rfl, rfl, rfl⟩
      · exact .untouched (proc_setProc_of_ne s hk _) (update_of_ne hk _ _) ⟨rfl, rfl, rfl, rfl⟩
    · cases h
  | interrupt i =>
    rw [step] at h
    split at h
    · rename_i hc
      obtain ⟨live, inKernel, -⟩ := hc
      cases h
      by_cases hk : k = i
      · subst hk
        exact .interrupt live inKernel rfl (update_self ..) ⟨rfl, rfl, rfl, rfl⟩
      · exact .untouched rfl (update_of_ne hk _ _) ⟨rfl, rfl, rfl, rfl⟩
    · cases h
  | sys i c =>
    rw [step] at h
    split at h
    · rename_i hc
      obtain ⟨live, inKernel, -, -, reaps⟩ := hc
      cases h
      exact call_slot live inKernel c reaps k
    · cases h
  | exit i status =>
    rw [step] at h
    split at h
    · rename_i hc
      cases h
      by_cases hk : k = i
      · subst hk
        refine .dead (fun _ => ⟨status, rfl⟩) ?_ ?_ ?_ ?_ rfl ⟨rfl, rfl, rfl, rfl⟩
        · simp [exit, Live]
        all_goals by_cases hp : (s.proc k).parent = some k <;> simp [exit, hp]
      · by_cases hp : (s.proc k).parent = some i
        · exact .rest (s.proc k).pending (some initproc) (by simp [exit, hp, hk]) rfl ⟨rfl, rfl, rfl, rfl⟩
        · exact .untouched (by simp [exit, hp, hk]) rfl ⟨rfl, rfl, rfl, rfl⟩
    · cases h
  | ret i =>
    rw [step] at h
    split at h
    · rename_i hc
      obtain ⟨live, leaving⟩ := hc
      cases h
      by_cases hk : k = i
      · subst hk
        exact .ret _ rfl live leaving (doSignal_signalled _) (proc_setProc_self ..) (update_self ..)
          (update_self ..) rfl rfl rfl
      · exact .untouched (proc_setProc_of_ne s hk _) (update_of_ne hk _ _)
          ⟨update_of_ne hk _ _, rfl, rfl, rfl⟩
    · cases h

/-! ### Handlers are transparent, but for `eax` -/

/-- Process `i` has called a handler on frame `tf`, and not returned from it. -/
structure Handling (s : Procs) (i : ProcIdx) (tf : TrapFrame) : Prop where
  live : s.Live i
  handling : (s.proc i).handlingSignal = true
  backupTf : (s.proc i).backupTf = tf

theorem Handling.keep {tf : TrapFrame} (hd : Handling s i tf) (hsig : a ≠ .sys i .sigreturn)
    (hexit : ∀ status, a ≠ .exit i status) (h : s.step a = .ok s') : Handling s' i tf := by
  obtain ⟨live, handling, backup⟩ := hd
  have hlive : ∀ {p : Proc}, s'.proc i = p → p.state = (s.proc i).state → s'.Live i := fun hp hst => by
    unfold Live
    rw [hp, hst]
    exact live
  cases step_slot h i with
  | rest pending parent proc => exact ⟨hlive proc rfl, by rw [proc]; exact handling, by rw [proc]; exact backup⟩
  | enter tf' _ _ _ proc => exact ⟨hlive proc rfl, by rw [proc]; exact handling, by rw [proc]; exact backup⟩
  | interrupt _ _ proc => exact ⟨hlive proc rfl, by rw [proc]; exact handling, by rw [proc]; exact backup⟩
  | call eax sz pending handlers _ _ proc => exact ⟨hlive proc rfl, by rw [proc]; exact handling, by rw [proc]; exact backup⟩
  | exec eip esp tramp sz _ _ proc => exact ⟨hlive proc rfl, by rw [proc]; exact handling, by rw [proc]; exact backup⟩
  | execLate tramp _ _ _ proc => exact ⟨hlive proc rfl, by rw [proc]; exact handling, by rw [proc]; exact backup⟩
  | sigreturn act => exact absurd act hsig
  | dead act =>
    obtain ⟨status, act⟩ := act live
    exact absurd act (hexit status)
  | born j _ _ _ free => exact absurd live free
  | ret r _ _ _ signalled proc =>
    cases signalled with
    | quiet pending handling' himp => exact ⟨hlive proc rfl, by rw [proc]; exact himp handling, by rw [proc]; exact backup⟩
    | handler signum pending _ idle =>
      rw [handling] at idle
      cases idle

theorem ret_proc (h : s.step (.ret i) = .ok s') :
    s.Live i ∧ s.phase i = .leaving ∧ s'.proc i = (s.proc i).doSignal.1 := by
  rw [step] at h
  split at h
  · rename_i hc
    rw [← Outcome.ok.inj h]
    exact ⟨hc.1, hc.2, proc_setProc_self ..⟩
  · cases h

theorem Handling.start (h : s.step (.ret i) = .ok s') (hcall : (s.proc i).doSignal.2 ≠ []) :
    Handling s' i (s.proc i).tf := by
  obtain ⟨live, -, hproc⟩ := ret_proc h
  have hs := doSignal_signalled (s.proc i)
  generalize (s.proc i).doSignal = r at hs hcall hproc
  cases hs with
  | quiet => exact absurd rfl hcall
  | handler signum pending _ _ =>
    refine ⟨?_, by rw [hproc], by rw [hproc]⟩
    unfold Live
    rw [hproc]
    exact live

theorem sigreturn_tf (h : s.step (.sys i .sigreturn) = .ok s') :
    (s'.proc i).tf = { (s.proc i).backupTf with eax := 0 } := by
  rw [step] at h
  split at h
  · cases h
    show ((s.afterCall i .sigreturn).proc i).tf = _
    rw [afterCall_proc_self]
    simp [call, Proc.sigreturn, restoreTf_eq]
  · cases h

/-- A handler is called on the return with some frame. Whatever happens until it has returned to the trampoline, which
    calls `sigreturn`, the process then goes on with that frame except that `eax` is 0. -/
theorem signal_transparent {s₁ s₂ s₃ s₄ : Procs} {tf : TrapFrame} (hret : s.step (.ret i) = .ok s₁)
    (hcall : (s.proc i).doSignal.2 ≠ [])
    (hrun : Reachable step (fun _ a => a ≠ .sys i .sigreturn ∧ ∀ status, a ≠ .exit i status) (· = s₁) s₂)
    (henter : s₂.step (.enter i tf) = .ok s₃) (hsys : s₃.step (.sys i .sigreturn) = .ok s₄) :
    (s₄.proc i).tf = { (s.proc i).tf with eax := 0 } ∧ ((s₄.proc i).tf = (s.proc i).tf ↔ (s.proc i).tf.eax = 0) := by
  have hstart := Handling.start hret hcall
  have hdone : Handling s₂ i (s.proc i).tf := hrun.invariant (P := fun t => Handling t i (s.proc i).tf)
    (fun t ht => by rw [ht]; exact hstart) fun t a t' hd hg hs => hd.keep hg.1 hg.2 hs
  have htf := sigreturn_tf hsys
  rw [(hdone.keep (by simp) (by simp) henter).backupTf] at htf
  refine ⟨htf, ?_⟩
  rw [htf]
  constructor
  · intro heq
    have := congrArg TrapFrame.eax heq
    exact this.symm
  · intro hz
    rw [← hz]

def userTf (eax trapno : UInt32) : TrapFrame :=
  { cs := USER_CS, ds := USER_DS, es := USER_DS, ss := USER_DS, eflags := FL_IF, esp := 0xff0, eax := eax, trapno := trapno }

/-- A process has a handler for signal 3, and its child sends it one; then it is interrupted with 5 in `eax`. -/
def signalled : Outcome Procs :=
  runList step boot
    [.ret 0, .enter 0 (userTf 25 64), .sys 0 (.signal 3 0x100), .ret 0, .enter 0 (userTf 1 64), .sys 0 (.fork .ok), .ret 0,
      .ret 1, .enter 1 (userTf 26 64), .sys 1 (.sigsend 1 3), .enter 0 (userTf 5 32), .interrupt 0]

theorem signalled_runs : ∃ s, signalled = .ok s ∧ (s.proc 0).doSignal.2 ≠ [] ∧ (s.proc 0).tf.eax = 5 ∧
    ∃ s₁, s.step (.ret 0) = .ok s₁ ∧ ∃ s₃, s₁.step (.enter 0 (userTf 27 64)) = .ok s₃ ∧ ∃ s₄, s₃.step (.sys 0 .sigreturn) = .ok s₄ := by
  decide +kernel

theorem signal_transparent_signalled : ∃ s s₁ s₃ s₄ : Procs, s.step (.ret 0) = .ok s₁ ∧ (s.proc 0).doSignal.2 ≠ [] ∧
    s₁.step (.enter 0 (userTf 27 64)) = .ok s₃ ∧ s₃.step (.sys 0 .sigreturn) = .ok s₄ ∧
    (s₄.proc 0).tf = { (s.proc 0).tf with eax := 0 } := by
  obtain ⟨s, -, hcall, -, s₁, hret, s₃, henter, s₄, hsys⟩ := signalled_runs
  exact ⟨s, s₁, s₃, s₄, hret, hcall, henter, hsys, (signal_transparent hret hcall (.init rfl) henter hsys).1⟩

/-- The interrupted computation goes on with 0 instead of 5 in `eax`. -/
theorem signalled_loses_eax : ∃ s s₁ s₃ s₄ : Procs, Reachable step (fun _ _ => True) (· = boot) s ∧
    s.step (.ret 0) = .ok s₁ ∧ (s.proc 0).doSignal.2 ≠ [] ∧ s₁.step (.enter 0 (userTf 27 64)) = .ok s₃ ∧
    s₃.step (.sys 0 .sigreturn) = .ok s₄ ∧ (s.proc 0).tf.eax = 5 ∧ (s₄.proc 0).tf.eax = 0 ∧ (s₄.proc 0).tf ≠ (s.proc 0).tf := by
  obtain ⟨s, hrun, hcall, heax, s₁, hret, s₃, henter, s₄, hsys⟩ := signalled_runs
  have hr : Reachable step (fun _ _ => True) (· = boot) s :=
    Reachable.runList (fun _ _ => trivial) (.init rfl) hrun
  have hzero : (s₄.proc 0).tf.eax = 0 := by rw [sigreturn_tf hsys]
  refine ⟨s, s₁, s₃, s₄, hr, hret, hcall, henter, hsys, heax, hzero, fun heq => ?_⟩
  rw [heq, heax] at hzero
  exact absurd hzero (by decide)

/-! ### The frames that go back to user mode -/

/-- A process in the kernel has the frame of a trap from user mode, and so has the slot in which a handler has been
    called; the other slots have none saved. -/
structure Frames (s : Procs) : Prop where
  kernel : ∀ k, s.Live k → s.phase k ≠ .user → UserFrame (s.proc k).tf
  saved : ∀ k, s.saved k = true → UserFrame (s.proc k).backupTf
  unsaved : ∀ k, s.saved k = false → (s.proc k).backupTf = {}

theorem boot_frames : Frames boot where
  kernel := fun k hlive _ => by
    by_cases hk : k = initproc
    · subst hk
      decide
    · simp [boot, hk, Live] at hlive
  saved := fun k hk => nomatch hk
  unsaved := fun k _ => by
    by_cases hk : k = initproc
    · subst hk
      rfl
    · simp [boot, hk]

theorem Frames.keep (inv : Frames s) (hg : ∀ i, a = .sys i .sigreturn → s.saved i = true) (h : s.step a = .ok s') :
    Frames s' := by
  have hkeep : ∀ {k}, (s'.proc k).backupTf = (s.proc k).backupTf → s'.saved k = s.saved k →
      (s'.saved k = true → UserFrame (s'.proc k).backupTf) ∧ (s'.saved k = false → (s'.proc k).backupTf = {}) :=
    fun hback hsaved => by
      rw [hback, hsaved]
      exact ⟨inv.saved _, inv.unsaved _⟩
  have hslot : ∀ k, (s'.Live k → s'.phase k ≠ .user → UserFrame (s'.proc k).tf) ∧
      (s'.saved k = true → UserFrame (s'.proc k).backupTf) ∧ (s'.saved k = false → (s'.proc k).backupTf = {}) := fun k => by
    cases step_slot h k with
    | rest pending parent proc phase hist =>
      refine ⟨fun hlive hphase => ?_, hkeep (by rw [proc]) hist.saved⟩
      unfold Live at hlive
      rw [proc] at hlive ⊢
      exact inv.kernel k hlive (phase ▸ hphase)
    | enter tf user _ _ proc _ hist =>
      refine ⟨fun _ _ => ?_, hkeep (by rw [proc]) hist.saved⟩
      rw [proc]
      exact user
    | interrupt live inKernel proc _ hist =>
      refine ⟨fun _ _ => ?_, hkeep (by rw [proc]) hist.saved⟩
      rw [proc]
      exact inv.kernel k live (by rw [inKernel]; decide)
    | call eax sz pending handlers live inKernel proc _ hist =>
      refine ⟨fun _ _ => ?_, hkeep (by rw [proc]) hist.saved⟩
      rw [proc]
      exact (inv.kernel k live (by rw [inKernel]; decide)).regs ..
    | exec eip esp tramp sz live inKernel proc _ saved _ _ _ =>
      refine ⟨fun _ _ => ?_, hkeep (by rw [proc]) saved⟩
      rw [proc]
      exact (inv.kernel k live (by rw [inKernel]; decide)).regs ..
    | execLate tramp _ live inKernel proc _ saved _ _ _ =>
      refine ⟨fun _ _ => ?_, hkeep (by rw [proc]) saved⟩
      rw [proc]
      exact (inv.kernel k live (by rw [inKernel]; decide)).regs ..
    | sigreturn act _ _ proc _ hist =>
      refine ⟨fun _ _ => ?_, hkeep (by rw [proc]) hist.saved⟩
      rw [proc]
      exact (inv.saved k (hg k act)).regs ..
    | dead _ gone backupTf _ _ _ hist => exact ⟨fun hlive => absurd hlive gone, hkeep backupTf hist.saved⟩
    | born i _ live inKernel _ tf backupTf _ _ saved _ _ _ =>
      refine ⟨fun _ _ => ?_, hkeep backupTf saved⟩
      rw [tf]
      exact (inv.kernel i live (by rw [inKernel]; decide)).regs ..
    | ret r _ live leaving signalled proc phase saved _ _ _ =>
      refine ⟨fun _ hphase => absurd phase hphase, ?_⟩
      cases signalled with
      | quiet pending handling _ => exact hkeep (by rw [proc]) (by rw [saved]; simp)
      | handler signum pending _ _ =>
        have huser := inv.kernel k live (by rw [leaving]; decide)
        refine ⟨fun _ => by rw [proc]; exact huser, fun hno => ?_⟩
        rw [saved] at hno
        simp at hno
  exact ⟨fun k => (hslot k).1, fun k => (hslot k).2.1, fun k => (hslot k).2.2⟩

/-- The frame that `trapret` returns with is one of user mode, whether or not a handler is called. -/
theorem Frames.ret (inv : Frames s) (h : s.step (.ret i) = .ok s') : UserFrame (s'.proc i).tf := by
  obtain ⟨live, leaving, hproc⟩ := ret_proc h
  have huser := inv.kernel i live (by rw [leaving]; decide)
  rw [hproc]
  have hs := doSignal_signalled (s.proc i)
  generalize (s.proc i).doSignal = r at hs
  cases hs with
  | quiet => exact huser
  | handler => exact huser.regs (s.proc i).tf.eax ..

/-- Every store that misses the process faults. -/
def faults : Poke := fun _ _ _ => .panic "trap"

def answersHandler (s : Procs) : Act → Bool
  | .sys i .sigreturn => s.saved i
  | _ => true

/-- The signal of `signalled` is handled: its handler has returned to the trampoline. -/
def handled : Outcome Procs :=
  runList (fun s a => if decide (s.OnStack a) && answersHandler s a then s.stepOn faults a else .sleep) boot
    [.ret 0, .enter 0 (userTf 25 64), .sys 0 (.signal 3 0x100), .ret 0, .enter 0 (userTf 26 64), .sys 0 (.sigsend 1 3),
      .ret 0, .enter 0 (userTf 27 64)]

/-- `ret_add` follows the last `exec` in the slot, which is the one that built the image if the process made it. -/
structure Returns (s : Procs) : Prop where
  retAdd : ∀ k, (s.proc k).retAdd = s.lastExec k
  own : ∀ k, s.execd k = true → s.image k = some (s.lastExec k)

theorem boot_returns : Returns boot where
  retAdd := fun k => by
    by_cases hk : k = initproc
    · subst hk
      rfl
    · simp [boot, hk]
  own := fun k hk => nomatch hk

theorem Returns.keep (inv : Returns s) (hg : ∀ i tramp, a ≠ .sys i (.exec (.failedLate tramp)))
    (h : s.step a = .ok s') : Returns s' := by
  have hkeep : ∀ {k}, (s'.proc k).retAdd = (s.proc k).retAdd → s'.image k = s.image k → s'.lastExec k = s.lastExec k →
      s'.execd k = s.execd k →
      (s'.proc k).retAdd = s'.lastExec k ∧ (s'.execd k = true → s'.image k = some (s'.lastExec k)) :=
    fun hret himage hlast hexecd => by
      rw [hret, himage, hlast, hexecd]
      exact ⟨inv.retAdd _, inv.own _⟩
  have hslot : ∀ k, (s'.proc k).retAdd = s'.lastExec k ∧ (s'.execd k = true → s'.image k = some (s'.lastExec k)) := fun k => by
    cases step_slot h k with
    | rest pending parent proc _ hist => exact hkeep (by rw [proc]) hist.image hist.lastExec hist.execd
    | enter tf _ _ _ proc _ hist => exact hkeep (by rw [proc]) hist.image hist.lastExec hist.execd
    | interrupt _ _ proc _ hist => exact hkeep (by rw [proc]) hist.image hist.lastExec hist.execd
    | call eax sz pending handlers _ _ proc _ hist => exact hkeep (by rw [proc]) hist.image hist.lastExec hist.execd
    | exec eip esp tramp sz _ _ proc _ _ image lastExec _ => exact ⟨by rw [proc, lastExec], fun _ => by rw [image, lastExec]⟩
    | execLate tramp act => exact absurd act (hg k tramp)
    | sigreturn _ _ _ proc _ hist => exact hkeep (by rw [proc]) hist.image hist.lastExec hist.execd
    | dead _ _ _ retAdd _ _ hist => exact hkeep retAdd hist.image hist.lastExec hist.execd
    | born i _ _ _ _ _ _ retAdd _ _ _ lastExec execd =>
      -- The child has its parent's image and the return address that the slot was left with.
      refine ⟨by rw [retAdd, lastExec, inv.retAdd], fun hown => ?_⟩
      rw [execd] at hown
      cases hown
    | ret r _ _ _ signalled proc _ _ image lastExec execd =>
      refine hkeep ?_ image lastExec execd
      rw [proc]
      cases signalled <;> rfl
  exact ⟨fun k => (hslot k).1, fun k => (hslot k).2⟩

def execsCleanly : Act → Bool
  | .sys _ (.exec (.failedLate _)) => false
  | _ => true

/-- A process calls `exec` and forks; then it, or its child, takes a handler for signal 3 and sends itself one. -/
def forked (i : ProcIdx) (pid : UInt32) : Outcome Procs :=
  runList (fun s a => if decide (s.OnStack a) && execsCleanly a then s.stepOn faults a else .sleep) boot
    [.ret 0, .enter 0 (userTf 7 64), .sys 0 (.exec (.ok 0 0xff0 0x1fe0 0x2000)), .ret 0, .enter 0 (userTf 1 64),
      .sys 0 (.fork .ok), .ret 0, .ret 1, .enter i (userTf 25 64), .sys i (.signal 3 0x100), .ret i,
      .enter i (userTf 26 64), .sys i (.sigsend pid 3)]

theorem forked_reachable {pid : UInt32} (h : forked i pid = .ok s) :
    Reachable (stepOn faults) (fun s a => s.OnStack a ∧ ∀ i tramp, a ≠ .sys i (.exec (.failedLate tramp))) (· = boot) s := by
  refine Reachable.runGuarded (g := fun (s : Procs) a => decide (s.OnStack a) && execsCleanly a) ?_ (.init rfl) h
  intro t a hg
  rw [Bool.and_eq_true, decide_eq_true_eq] at hg
  refine ⟨hg.1, ?_⟩
  rintro i tramp rfl
  cases hg.2

end Procs
end Xv6
