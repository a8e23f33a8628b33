import Xv6.Lib.Bits
import Xv6.Theorems.Signal

/-! The signals of a process over whole runs: what is sent is delivered once, handlers do not nest, and which handlers a
    program finds that `exec` has started. -/

namespace Xv6
open Function (update update_of_ne update_self)
open Proc
open Machine

/-! ### One return to user mode -/

structure Signals where
  pending : UInt32
  handlingSignal : Bool
  handlers : Fin NUMSIG → UInt32

namespace Proc
variable {p : Proc} {signum k : Fin NUMSIG}

def signals (p : Proc) : Signals := ⟨p.pending, p.handlingSignal, p.handlers⟩

/-- The signal that `do_signal` delivers, to the handler of the process or to `default_handler`. -/
def delivered (p : Proc) : Option (Fin NUMSIG) :=
  if p.tf.cs &&& 3 = DPL_USER ∧ p.pending ≠ 0 ∧ p.handlingSignal = false then firstPending p.pending else none

/-- The signal that `do_signal` calls a handler of the process for, and the handler. -/
def dispatched (p : Proc) : Option (Fin NUMSIG × UInt32) :=
  p.delivered.bind fun signum => if p.handlers signum = SIG_DFL then none else some (signum, p.handlers signum)

theorem firstPending_isSome {pending : UInt32} (h : pending ≠ 0) : ∃ signum, firstPending pending = some signum := by
  obtain ⟨k, hk⟩ := Bits.exists_has h
  refine Option.isSome_iff_exists.mp (List.find?_isSome.mpr ⟨k, List.mem_finRange k, ?_⟩)
  exact decide_eq_true hk

theorem firstPending_has {pending : UInt32} (h : firstPending pending = some signum) : Bits.Has pending signum := by
  have hbit := List.find?_some h
  exact of_decide_eq_true hbit

theorem firstPending_least {pending : UInt32} (h : firstPending pending = some signum) (hk : Bits.Has pending k) : signum ≤ k := by
  obtain ⟨-, before, after, hsplit, hnone⟩ := List.find?_eq_some_iff_append.mp h
  by_contra hlt
  have hmem : k ∈ before ++ signum :: after := hsplit ▸ List.mem_finRange k
  have hsorted : (before ++ signum :: after).Pairwise (· < ·) := hsplit ▸ List.pairwise_lt_finRange NUMSIG
  rcases List.mem_append.mp hmem with hb | hb
  · have hnot := hnone k hb
    rw [Bool.not_eq_true', decide_eq_false_iff_not] at hnot
    exact hnot hk
  · rcases List.mem_cons.mp hb with rfl | hafter
    · exact hlt le_rfl
    · exact hlt ((List.pairwise_cons.mp (List.pairwise_append.mp hsorted).2.1).1 k hafter).le

theorem delivered_eq_none_or (p : Proc) : p.delivered = none ∧ p.doSignal = (p, []) ∨ ∃ signum, p.delivered = some signum := by
  unfold delivered doSignal
  split
  · rename_i h
    exact Or.inr (firstPending_isSome h.2.1)
  · exact Or.inl ⟨rfl, rfl⟩

theorem delivered_some (h : p.delivered = some signum) :
    (p.tf.cs &&& 3 = DPL_USER ∧ p.pending ≠ 0 ∧ p.handlingSignal = false) ∧ firstPending p.pending = some signum := by
  unfold delivered at h
  split at h
  · rename_i hopen
    exact ⟨hopen, h⟩
  · cases h

/-- A delivery runs `default_handler`, or saves the frame and calls the handler of the process with the signal and the
    return address on its stack. -/
theorem doSignal_delivered (h : p.delivered = some signum) : p.doSignal =
    if p.handlers signum = SIG_DFL then ({ p with pending := p.pending &&& ~~~(1 <<< UInt32.ofNat signum), handlingSignal := false }, [])
    else ({ p with
        pending := p.pending &&& ~~~(1 <<< UInt32.ofNat signum), handlingSignal := true, backupTf := p.tf
        tf := { p.tf with esp := p.tf.esp - 4 - 4, eip := p.handlers signum } },
      [(p.tf.esp - 4, UInt32.ofNat signum), (p.tf.esp - 4 - 4, p.retAdd)]) := by
  obtain ⟨hopen, hfirst⟩ := delivered_some h
  unfold doSignal
  rw [if_pos hopen]
  dsimp only
  rw [hfirst]
  rfl

theorem pending_doSignal (h : p.delivered = some signum) :
    p.doSignal.1.pending = p.pending &&& ~~~(1 <<< UInt32.ofNat signum) := by
  rw [doSignal_delivered h]
  split <;> rfl

theorem handlers_doSignal (p : Proc) : p.doSignal.1.handlers = p.handlers := by
  rcases p.delivered_eq_none_or with ⟨-, h⟩ | ⟨signum, h⟩
  · rw [h]
  · rw [doSignal_delivered h]
    split <;> rfl

theorem dispatched_some {h : UInt32} (hd : p.dispatched = some (signum, h)) : h = p.handlers signum ∧ h ≠ SIG_DFL := by
  obtain ⟨k, -, hk⟩ := Option.bind_eq_some_iff.mp hd
  split at hk
  · cases hk
  · rename_i hne
    cases hk
    exact ⟨rfl, hne⟩

theorem handling_of_dispatched (h : p.dispatched ≠ none) : p.doSignal.1.handlingSignal = true := by
  rcases p.delivered_eq_none_or with ⟨hnone, -⟩ | ⟨signum, hd⟩
  · rw [dispatched, hnone] at h
    exact absurd rfl h
  · rw [dispatched, hd, Option.bind_some] at h
    rw [doSignal_delivered hd]
    split
    · rename_i hdfl
      rw [if_pos hdfl] at h
      exact absurd rfl h
    · rfl

theorem delivered_of_handling (h : p.handlingSignal = true) : p.delivered = none := by
  rcases p.delivered_eq_none_or with ⟨hnone, -⟩ | ⟨signum, hd⟩
  · exact hnone
  · have hidle := (delivered_some hd).1.2.2
    rw [h] at hidle
    cases hidle

end Proc

namespace Procs
variable {s s' : Procs} {a : Act} {i k : ProcIdx} {signum : Fin NUMSIG} {poke : Poke}

/-! ### What a step does to the signals of a slot -/

def receiver (s : Procs) (pid : UInt32) : Option ProcIdx := (List.finRange NPROC).find? fun j => (s.proc j).pid = pid

/-- Some process sends the signal to the process. -/
def Sends (s : Procs) (a : Act) (k : ProcIdx) (signum : Fin NUMSIG) : Prop :=
  ∃ i pid, a = .sys i (.sigsend pid (.ofNat signum)) ∧ s.receiver pid = some k

/-- The process calls `signal`, which accepts the handler. -/
def Installs (s : Procs) (a : Act) (k : ProcIdx) (signum : Fin NUMSIG) (handler : UInt32) : Prop :=
  a = .sys k (.signal (.ofNat signum) handler) ∧
    ¬((s.proc k).sz ≤ handler.toNat ∨ (s.proc k).sz < (handler.toNat + 4) % 2 ^ 32)

inductive SignalStep (s : Procs) (a : Act) (k : ProcIdx) : Signals → Prop
  | rest : SignalStep s a k (s.proc k).signals
  | sent (signum : Fin NUMSIG) (h : s.Sends a k signum) :
      SignalStep s a k { (s.proc k).signals with pending := (s.proc k).pending ||| (1 <<< UInt32.ofNat signum) }
  | installed (signum : Fin NUMSIG) (handler : UInt32) (h : s.Installs a k signum handler) :
      SignalStep s a k { (s.proc k).signals with handlers := update (s.proc k).handlers signum handler }
  | returned (h : a = .sys k .sigreturn) : SignalStep s a k { (s.proc k).signals with handlingSignal := false }
  | allocated (h : s.Allocates a k) : SignalStep s a k ⟨0, false, fun _ => SIG_DFL⟩
  | ret (h : a = .ret k) : SignalStep s a k (s.proc k).doSignal.1.signals

theorem Sends.onStack (h : s.Sends a k signum) : s.OnStack a := by
  obtain ⟨i, pid, rfl, -⟩ := h
  trivial

theorem SignalStep.of_eq {v : Signals} (h : v = (s.proc k).signals) : SignalStep s a k v := h ▸ .rest

theorem signals_update {f : ProcIdx → Proc} {p : Proc} (h : p.signals = (f i).signals) (k : ProcIdx) :
    (update f i p k).signals = (f k).signals := by
  by_cases hk : k = i
  · rw [hk, update_self, h]
  · rw [update_of_ne hk]

theorem signals_afterCall (c : Call) (k : ProcIdx) : ((s.afterCall i c).proc k).signals = ((s.call i c).2.proc k).signals :=
  signals_update (by rfl) k

theorem SignalStep.fork (r : ForkResult) (k : ProcIdx) :
    SignalStep s (.sys i (.fork r)) k ((s.fork i r).2.proc k).signals := by
  unfold Procs.fork
  split
  · exact .rest
  · rename_i j hfind
    by_cases hk : k = j
    · subst hk
      have halloc : s.Allocates (.sys i (.fork r)) k := ⟨i, r, rfl, hfind⟩
      cases r <;> simp only [setProc, update_self] <;> exact .allocated halloc
    · cases r <;> simp only [setProc, update_of_ne hk] <;> exact .rest

theorem SignalStep.sigsend (pid num : UInt32) (k : ProcIdx) :
    SignalStep s (.sys i (.sigsend pid num)) k ((s.sigsend pid num).2.proc k).signals := by
  unfold Procs.sigsend
  split
  · exact .rest
  · rename_i hnum
    split
    · exact .rest
    · rename_i j hfind
      by_cases hk : k = j
      · subst hk
        rw [proc_setProc_self]
        have heq : UInt32.ofNat (⟨num.toNat, not_le.mp hnum⟩ : Fin NUMSIG) = num := UInt32.ofNat_toNat
        have hsends : s.Sends (.sys i (.sigsend pid num)) k ⟨num.toNat, not_le.mp hnum⟩ := ⟨i, pid, by rw [heq], hfind⟩
        have hstep := SignalStep.sent _ hsends
        rw [heq] at hstep
        exact hstep
      · rw [proc_setProc_of_ne s hk]
        exact .rest

theorem SignalStep.signal (num handler : UInt32) (k : ProcIdx) :
    SignalStep s (.sys i (.signal num handler)) k ((s.setProc i ((s.proc i).sysSignal num handler).2).proc k).signals := by
  by_cases hk : k = i
  · subst hk
    rw [proc_setProc_self]
    unfold Proc.sysSignal Proc.signal
    split
    · exact .rest
    · rename_i haccepted
      split
      · rename_i hnum
        have heq : UInt32.ofNat (⟨num.toNat, hnum⟩ : Fin NUMSIG) = num := UInt32.ofNat_toNat
        exact .installed ⟨num.toNat, hnum⟩ handler ⟨by rw [heq], haccepted⟩
      · exact .rest
  · rw [proc_setProc_of_ne s hk]
    exact .rest

theorem SignalStep.call (c : Call) (k : ProcIdx) : SignalStep s (.sys i c) k ((s.call i c).2.proc k).signals := by
  cases c with
  | fork r => exact .fork r k
  | sigsend pid num => exact .sigsend pid num k
  | signal num handler => exact .signal num handler k
  | wait child => exact .of_eq (signals_update (by rfl) k)
  | badArgs => exact .rest
  | exec r =>
    cases r with
    | ok eip esp tramp sz => exact .of_eq (signals_update (by rfl) k)
    | failed => exact .rest
    | failedLate tramp => exact .of_eq (signals_update (by rfl) k)
  | sigreturn =>
    by_cases hk : k = i
    · subst hk
      exact (congrArg (SignalStep s _ k) (congrArg Proc.signals (proc_setProc_self ..))).mpr (.returned rfl)
    · exact .of_eq (congrArg Proc.signals (proc_setProc_of_ne s hk _))
  | other result sz =>
    rw [Procs.call]
    split
    · exact .of_eq (signals_update (by rfl) k)
    · exact .rest

theorem step_signals (h : s.step a = .ok s') (k : ProcIdx) : SignalStep s a k (s'.proc k).signals := by
  cases a with
  | enter i tf =>
    rw [step] at h
    split at h <;> cases h
    exact .of_eq (signals_update (by rfl) k)
  | interrupt i =>
    rw [step] at h
    split at h <;> cases h
    exact .rest
  | sys i c =>
    rw [step] at h
    split at h <;> cases h
    exact (congrArg (SignalStep s _ k) (signals_afterCall c k)).mpr (.call c k)
  | exit i status =>
    rw [step] at h
    split at h <;> cases h
    refine .of_eq ?_
    dsimp only [Procs.exit]
    split <;> split <;> rfl
  | ret i =>
    rw [step] at h
    split at h <;> cases h
    by_cases hk : k = i
    · subst hk
      exact (congrArg (SignalStep s _ k) (congrArg Proc.signals (proc_setProc_self ..))).mpr (.ret rfl)
    · exact .of_eq (congrArg Proc.signals (proc_setProc_of_ne s hk _))

/-! ### Signals over runs -/

/-- The process returns to user mode, and the signal is delivered. -/
def Delivers (s : Procs) (a : Act) (k : ProcIdx) (signum : Fin NUMSIG) : Prop :=
  a = .ret k ∧ (s.proc k).delivered = some signum

section SignalStep
variable {v : Signals}

theorem SignalStep.has_back (h : SignalStep s a k v) (hsend : ¬s.Sends a k signum) (hv : Bits.Has v.pending signum) :
    Bits.Has (s.proc k).pending signum := by
  cases h with
  | rest | installed _ _ _ | returned _ => exact hv
  | sent n hn =>
    rcases Bits.has_set.mp hv with hv | rfl
    · exact hv
    · exact absurd hn hsend
  | allocated _ => exact absurd hv (Bits.not_has_zero _)
  | ret _ =>
    change Bits.Has (s.proc k).doSignal.1.pending signum at hv
    rcases (s.proc k).delivered_eq_none_or with ⟨-, hnone⟩ | ⟨n, hn⟩
    · rw [hnone] at hv
      exact hv
    · rw [Proc.pending_doSignal hn] at hv
      exact (Bits.has_clear.mp hv).1

theorem SignalStep.has_keep (h : SignalStep s a k v) (hdel : ¬s.Delivers a k signum) (halloc : ¬s.Allocates a k)
    (hp : Bits.Has (s.proc k).pending signum) : Bits.Has v.pending signum := by
  cases h with
  | rest | installed _ _ _ | returned _ => exact hp
  | sent n _ => exact Bits.has_set.mpr (Or.inl hp)
  | allocated h => exact absurd h halloc
  | ret ha =>
    change Bits.Has (s.proc k).doSignal.1.pending signum
    rcases (s.proc k).delivered_eq_none_or with ⟨-, hnone⟩ | ⟨n, hn⟩
    · rw [hnone]
      exact hp
    · rw [Proc.pending_doSignal hn]
      refine Bits.has_clear.mpr ⟨hp, ?_⟩
      rintro rfl
      exact hdel ⟨ha, hn⟩

theorem SignalStep.handling_keep (h : SignalStep s a k v) (hret : a ≠ .sys k .sigreturn) (halloc : ¬s.Allocates a k)
    (hh : (s.proc k).handlingSignal = true) : v.handlingSignal = true := by
  cases h with
  | rest | installed _ _ _ | sent _ _ => exact hh
  | returned h => exact absurd h hret
  | allocated h => exact absurd h halloc
  | ret _ =>
    change (s.proc k).doSignal.1.handlingSignal = true
    rcases (s.proc k).delivered_eq_none_or with ⟨-, hnone⟩ | ⟨n, hn⟩
    · rw [hnone]
      exact hh
    · rw [Proc.delivered_of_handling hh] at hn
      cases hn

end SignalStep

theorem allocates_signals (h : s.step a = .ok s') (halloc : s.Allocates a k) :
    (s'.proc k).signals = ⟨0, false, fun _ => SIG_DFL⟩ := by
  obtain ⟨i, r, rfl, hfind⟩ := halloc
  rw [step] at h
  split at h <;> cases h
  change ((s.afterCall i (.fork r)).proc k).signals = _
  rw [signals_afterCall, call, fork, hfind]
  cases r <;> simp only [setProc, update_self] <;> rfl

theorem not_has_after (h : s.step a = .ok s') (hdel : s.Delivers a k signum) : ¬Bits.Has (s'.proc k).pending signum := by
  obtain ⟨rfl, hdel⟩ := hdel
  rw [(ret_proc h).2.2, Proc.pending_doSignal hdel]
  exact fun hp => (Bits.has_clear.mp hp).2 rfl

theorem has_after (h : s.step a = .ok s') (hsend : s.Sends a k signum) : Bits.Has (s'.proc k).pending signum := by
  obtain ⟨i, pid, rfl, hfind⟩ := hsend
  have hnum : (UInt32.ofNat signum).toNat = signum := by
    rw [UInt32.toNat_ofNat']
    exact Nat.mod_eq_of_lt (signum.isLt.trans (by decide))
  rw [step] at h
  split at h <;> cases h
  have hview : (((s.afterCall i (.sigsend pid (.ofNat signum))).proc k).signals).pending =
      (s.proc k).pending ||| (1 <<< UInt32.ofNat signum) := by
    rw [signals_afterCall]
    simp only [call, sigsend, receiver] at hfind ⊢
    rw [if_neg (by rw [hnum]; exact not_le.mpr signum.isLt), hfind]
    exact congrArg Proc.pending (proc_setProc_self ..)
  change Bits.Has (((s.afterCall i (.sigsend pid (.ofNat signum))).proc k).signals).pending signum
  rw [hview]
  exact Bits.has_set.mpr (Or.inr rfl)

/-- A kernel that has the pending signals of the first process at this address. -/
def pokesPending : Poke := fun addr word s =>
  .ok (if addr = 0x80114db4 then s.setProc 0 { s.proc 0 with pending := word } else s)

def sparesZero : Act → Bool
  | .sys _ (.sigsend _ signum) => signum != 0
  | _ => true

/-- The process calls `exec`, which succeeds. -/
def Act.Execs (a : Act) (k : ProcIdx) : Prop := ∃ eip esp tramp sz, a = .sys k (.exec (.ok eip esp tramp sz))

theorem Act.Execs.onStack (h : a.Execs k) : s.OnStack a := by
  obtain ⟨eip, esp, tramp, sz, rfl⟩ := h
  trivial

theorem Allocates.onStack (h : s.Allocates a k) : s.OnStack a := by
  obtain ⟨i, r, rfl, -⟩ := h
  trivial

/-- `do_signal` calls the handler for the signal. -/
def RunsHandler (poke : Poke) (s : Procs) (k : ProcIdx) (signum : Fin NUMSIG) (handler : UInt32) : Prop :=
  (s.proc k).delivered = some signum ∧
    ∃ stores s', s.doSignal poke k = .ok (stores, s') ∧ stores ≠ [] ∧ (s'.proc k).tf.eip = handler

theorem RunsHandler.dispatched {handler : UInt32} (h : s.RunsHandler poke k signum handler) (hon : s.OnStack (.ret k)) :
    (s.proc k).dispatched = some (signum, handler) := by
  obtain ⟨hdel, stores, s', hcall, hne, rfl⟩ := h
  rw [doSignal_eq hon, Proc.doSignal_delivered hdel] at hcall
  rw [Proc.dispatched, hdel, Option.bind_some]
  split at hcall
  · cases hcall
    exact absurd rfl hne
  · rename_i hh
    cases hcall
    rw [if_neg hh, proc_setProc_self]

theorem execs_signals (h : s.step a = .ok s') (ha : a.Execs k) : (s'.proc k).signals = (s.proc k).signals := by
  obtain ⟨eip, esp, tramp, sz, rfl⟩ := ha
  rw [step] at h
  split at h <;> cases h
  change ((s.afterCall k (.exec (.ok eip esp tramp sz))).proc k).signals = _
  rw [signals_afterCall]
  exact signals_update (by rfl) k

theorem SignalStep.handlers_keep {v : Signals} {handler : UInt32} (h : SignalStep s a k v) (hne : handler ≠ SIG_DFL)
    (hinst : ¬s.Installs a k signum handler) (hs : (s.proc k).handlers signum ≠ handler) : v.handlers signum ≠ handler := by
  cases h with
  | rest | sent _ _ | returned _ => exact hs
  | installed n new h =>
    change update (s.proc k).handlers n new signum ≠ handler
    by_cases hn : signum = n
    · subst hn
      rw [update_self]
      rintro rfl
      exact hinst h
    · rw [update_of_ne hn]
      exact hs
  | allocated _ => exact hne.symm
  | ret _ =>
    change (s.proc k).doSignal.1.handlers signum ≠ handler
    rw [Proc.handlers_doSignal]
    exact hs

theorem kernel_frame {guard : Procs → Act → Prop} (h : Reachable step guard (· = boot) s) (live : s.Live k)
    (inKernel : s.phase k = .kernel) : UserFrame (s.proc k).tf := by
  refine h.invariant (P := fun s => ∀ k, s.Live k → s.phase k = .kernel → UserFrame (s.proc k).tf) ?_ ?_ k live inKernel
  · rintro _ rfl k - hphase
    cases hphase
  · intro s a t ih _ hs k live inKernel
    cases step_slot hs k with
    | rest pending parent proc phase hist =>
      unfold Live at live
      rw [proc] at live ⊢
      exact ih k live (phase ▸ inKernel)
    | enter tf user _ _ proc _ _ =>
      rw [proc]
      exact user
    | dead _ gone => exact absurd live gone
    | interrupt _ _ _ phase _ | call _ _ _ _ _ _ _ phase _ | exec _ _ _ _ _ _ _ phase _ _ _ _
    | execLate _ _ _ _ _ phase _ _ _ _ | sigreturn _ _ _ _ phase _ | born _ _ _ _ _ _ _ _ phase _ _ _ _
    | ret _ _ _ _ _ _ phase _ _ _ _ =>
      rw [phase] at inKernel
      cases inKernel

def frame (s : Procs) (k : ProcIdx) : TrapFrame × Phase := ((s.proc k).tf, s.phase k)

theorem leaving_keep (h : s.step a = .ok s') (hphase : s.phase k = .leaving) (hret : a ≠ .ret k) (halloc : ¬s.Allocates a k) :
    s'.frame k = s.frame k := by
  unfold frame
  cases step_slot h k with
  | rest pending parent proc phase _ => rw [proc, phase]
  | dead _ _ _ _ tf phase _ => rw [tf, phase]
  | born _ act => exact absurd act halloc
  | ret _ act => exact absurd act hret
  | enter _ _ _ before | interrupt _ before | call _ _ _ _ _ before | exec _ _ _ _ _ before | execLate _ _ _ before
  | sigreturn _ _ before =>
    rw [hphase] at before
    cases before

/-- The process is new in this state, or has just called `exec` with success, with default handlers only. -/
def StartsDefault (poke : Poke) (k : ProcIdx) (s₀ : Procs) : Prop :=
  s₀ = boot ∧ k = initproc ∨
    ∃ (r : Procs) (a : Act), r.stepOn poke a = .ok s₀ ∧
      (r.Allocates a k ∨ a.Execs k ∧ ∀ signum, (r.proc k).handlers signum = SIG_DFL)

theorem StartsDefault.handlers {s₀ : Procs} (h : StartsDefault poke k s₀) (signum : Fin NUMSIG) :
    (s₀.proc k).handlers signum = SIG_DFL := by
  rcases h with ⟨rfl, rfl⟩ | ⟨r, a, hs, halloc | ⟨hexec, hdefault⟩⟩
  · rfl
  · rw [stepOn_eq halloc.onStack] at hs
    exact congrFun (congrArg Signals.handlers (allocates_signals hs halloc)) signum
  · rw [stepOn_eq hexec.onStack] at hs
    exact (congrFun (congrArg Signals.handlers (execs_signals hs hexec)) signum).trans (hdefault signum)

theorem StartsDefault.not_dispatched {s₀ : Procs} {handler : UInt32} (h : StartsDefault poke k s₀)
    (hs : Reachable (stepOn poke) (fun s a => s.OnStack a ∧ ¬s.Installs a k signum handler) (· = s₀) s) :
    (s.proc k).dispatched ≠ some (signum, handler) := by
  intro hd
  obtain ⟨heq, hne⟩ := Proc.dispatched_some hd
  refine hs.invariant (P := fun s => (s.proc k).handlers signum ≠ handler) ?_ (fun s a t hp hg ht => ?_) heq.symm
  · rintro _ rfl
    rw [h.handlers]
    exact hne.symm
  · exact (step_signals (stepOn_eq hg.1 ▸ ht) k).handlers_keep hne hg.2 hp

theorem SignalStep.handler_eq {v : Signals} (h : SignalStep s a k v) (hinst : ∀ handler, ¬s.Installs a k signum handler)
    (halloc : ¬s.Allocates a k) : v.handlers signum = (s.proc k).handlers signum := by
  cases h with
  | rest | sent _ _ | returned _ => rfl
  | installed n new h =>
    refine update_of_ne ?_ _ _
    rintro rfl
    exact hinst new h
  | allocated h => exact absurd h halloc
  | ret _ => exact congrFun (Proc.handlers_doSignal _) signum

theorem SignalStep.handling_eq {v : Signals} (h : SignalStep s a k v) (hs : s.step a = .ok s') (hphase : s.phase k = .leaving)
    (hret : a ≠ .ret k) (halloc : ¬s.Allocates a k) : v.handlingSignal = (s.proc k).handlingSignal := by
  cases h with
  | rest | sent _ _ | installed _ _ _ => rfl
  | returned ha =>
    subst ha
    rw [step] at hs
    split at hs
    · rename_i hc
      rw [hphase] at hc
      cases hc.2.1
    · cases hs
  | allocated h => exact absurd h halloc
  | ret h => exact absurd h hret

theorem delivered_ne_none_iff {p : Proc} (huser : UserFrame p.tf) (hp : p.pending ≠ 0) :
    p.delivered ≠ none ↔ p.handlingSignal = false := by
  constructor
  · intro h
    by_contra hhandling
    exact h (delivered_of_handling (by simpa using hhandling))
  · intro h
    rw [delivered, if_pos ⟨by rw [huser.cs]; decide, hp, h⟩]
    obtain ⟨n, hn⟩ := firstPending_isSome hp
    rw [hn]
    nofun

theorem exec_return {r s₀ : Procs} {guard : Procs → Act → Prop} (hr : Reachable step guard (· = boot) r)
    (hexec : a.Execs k) (hstep : r.step a = .ok s₀)
    (hs : Reachable step (fun s a => a ≠ .ret k ∧ ¬s.Allocates a k) (· = s₀) s) :
    UserFrame (s.proc k).tf ∧ s.phase k = .leaving := by
  refine hs.invariant (P := fun s => UserFrame (s.proc k).tf ∧ s.phase k = .leaving) ?_ fun s a t hp hg ht => ?_
  · rintro _ rfl
    obtain ⟨eip, esp, tramp, sz, rfl⟩ := hexec
    rw [step] at hstep
    split at hstep
    · rename_i hc
      cases hstep
      refine ⟨?_, afterCall_phase_self (s := r) (.exec (.ok eip esp tramp sz))⟩
      change UserFrame ((r.afterCall k (.exec (.ok eip esp tramp sz))).proc k).tf
      rw [afterCall_proc_self]
      have hself : ((r.call k (.exec (.ok eip esp tramp sz))).2.proc k).tf = { (r.proc k).tf with eip := eip, esp := esp } :=
        congrArg Proc.tf (proc_setProc_self r k _)
      rw [hself]
      exact (kernel_frame hr hc.1 hc.2.1).regs ..
    · cases hstep
  · have hframe := leaving_keep ht hp.2 hg.1 hg.2
    rw [frame, frame, Prod.mk.injEq] at hframe
    rw [hframe.1, hframe.2]
    exact hp

def noSignal : Act → Bool
  | .sys _ (.signal _ _) => false
  | _ => true

def execAfter (as : List Act) : Outcome Procs :=
  runList (fun s a => if decide (s.OnStack a) then s.stepOn faults a else .sleep) boot (as ++ [.enter 0 (userTf 7 64)])

theorem execAfter_reachable {as : List Act} (h : execAfter as = .ok s) : Reachable (stepOn faults) OnStack (· = boot) s :=
  .runGuarded (fun _ _ hg => of_decide_eq_true hg) (.init rfl) h

end Procs
end Xv6
