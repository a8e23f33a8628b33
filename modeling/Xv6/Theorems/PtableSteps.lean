import Xv6.Theorems.PtableRuns

/-! What one step does to a slot, and to what the scheduler reads of it. -/

namespace Xv6
namespace Ptable
variable {s s' : Ptable} {a : Act} {i p np : ProcIdx}

/-- What the scheduler and `schedp` are about in a slot. -/
@[ext] structure View where
  state : ProcState
  ntickets : Nat
  priority : Int

def Slot.view (x : Slot) : View := ⟨x.state, x.ntickets, x.priority⟩

/-- The tickets that `fork` gives to a process of priority 10. -/
def newTickets (policy ntickets : Nat) : Nat :=
  match policy with
  | 1 => 10
  | 2 => 10
  | 3 => 20
  | _ => ntickets

def Act.actor : Act → Option ProcIdx
  | .fork i | .forkFails i | .forkCopies i | .forkEnds i | .exit i _ | .wait i _ | .waitAgain i | .sleep i _ | .yield i
  | .priority i _ => some i
  | .wakeup _ | .dispatch _ | .kill _ | .tick | .schedp _ => none

/-- The process that makes the step by a call of its own. -/
def Act.caller : Act → Option ProcIdx
  | .fork i | .forkFails i | .forkCopies i | .forkEnds i | .exit i _ | .wait i _ | .waitAgain i | .sleep i _ | .priority i _ => some i
  | .wakeup _ | .yield _ | .dispatch _ | .kill _ | .tick | .schedp _ => none

theorem Act.actor_of_caller (h : a.caller = some p) : a.actor = some p := by
  cases a <;> first | exact h | cases h

def target (s : Ptable) (pid : UInt32) : Option ProcIdx := (List.finRange NPROC).find? fun p => (s.slot p).pid = pid

/-! ### What a step can make of a slot -/

inductive Change (s : Ptable) (a : Act) (p : ProcIdx) : Slot → Prop
  | rest : Change s a p (s.slot p)
  | moves (ha : a.caller = some p) (h : (s.slot p).state = .running) (pc : Pc) : Change s a p { s.slot p with pc := pc }
  | adopted (parent : Option ProcIdx) : Change s a p { s.slot p with parent := parent }
  | wakes (h : (s.slot p).state = .sleeping) (parent : Option ProcIdx) :
      Change s a p { s.slot p with state := .runnable, parent := parent }
  | dispatched (ha : a = .dispatch p) (h : (s.slot p).state = .runnable) :
      Change s a p { s.slot p with state := .running, chan := none }
  | yields (ha : a = .yield p) (h : (s.slot p).state = .running) :
      Change s a p { s.slot p with
        state := .runnable
        ntickets := if s.currentPolicy = 3 ∧ 1 < (s.slot p).ntickets then (s.slot p).ntickets - 1 else (s.slot p).ntickets }
  | sleeps (addr : Nat) (ha : a = .sleep p addr) (hat : s.At p .user) :
      Change s a p { s.slot p with chan := some (.other addr), state := .sleeping }
  | waits (c : WaitCall) (ha : a.caller = some p) (h : (s.slot p).state = .running) (hk : (s.slot p).killed = false) :
      Change s a p { s.slot p with chan := some (.proc p), state := .sleeping, pc := .waiting c }
  | allocated (h : (s.slot p).state = .unused) :
      Change s a p { s.slot p with state := .embryo, pid := s.nextpid, pc := .user, id := s.births }
  | dropped (h : (s.slot p).state = .embryo) : Change s a p { s.slot p with state := .unused }
  | born (i : ProcIdx) (ha : a = .forkEnds i) (h : (s.slot p).state = .embryo) :
      Change s a p { s.slot p with
        priority := 10, ntickets := newTickets s.currentPolicy (s.slot p).ntickets, stime := 0, rutime := 0, retime := 0
        state := .runnable, ctime := s.ticks, forker := (s.slot i).id }
  | dies (status : UInt32) (parent : Option ProcIdx) (ha : a = .exit p status) (h : (s.slot p).state = .running) :
      Change s a p { s.slot p with parent := parent, ttime := s.ticks, state := .zombie, status := status, ntickets := 0 }
  | reaped (c : WaitCall) (h : (s.slot p).state = .zombie) : Change s a p ((s.slot p).clear c)
  | killed (pid : UInt32) (ha : a = .kill pid) (h : s.target pid = some p) :
      Change s a p { s.slot p with
        killed := true, ttime := s.ticks, state := if (s.slot p).state = .sleeping then .runnable else (s.slot p).state }
  | ticks (ha : a = .tick) : Change s a p (s.slot p).tick
  | sets (priority : Int) (ha : a = .priority p priority) (h : (s.slot p).state = .running) :
      Change s a p { s.slot p with priority := priority }

theorem Change.setSlot {x : Slot} (h : Change s a i x) : Change s a p ((s.setSlot i x).slot p) := by
  by_cases hp : p = i
  · rw [hp, setSlot_self]
    exact h
  · rw [setSlot_of_ne s x hp]
    exact .rest

theorem Change.setPc {t : Ptable} {x : Slot} (ha : a.caller = some i) (hi : (s.slot i).state = .running) (hne : i ≠ np)
    (hx : Change s a np x) (ht : t.slot = (s.setSlot np x).slot) (pc : Pc) :
    Change s a p ((t.setSlot i { t.slot i with pc := pc }).slot p) := by
  have hi' : t.slot i = s.slot i := by rw [ht, setSlot_of_ne s x hne]
  by_cases hp : p = i
  · rw [hp, setSlot_self, hi']
    exact .moves ha hi pc
  · rw [setSlot_of_ne t _ hp, ht]
    exact hx.setSlot

/-- What `wakeup1` and the loop of `exit` can make of a slot. -/
def Slot.Woken (x y : Slot) : Prop :=
  ∃ parent, y = { x with parent := parent } ∨ x.state = .sleeping ∧ y = { x with state := .runnable, parent := parent }

theorem Slot.Woken.refl (x : Slot) : x.Woken x := ⟨x.parent, .inl rfl⟩

theorem Slot.Woken.wakeup1 {x : Slot} (h : x.Woken (s.slot p)) (c : Chan) : x.Woken ((s.wakeup1 c).slot p) := by
  show x.Woken (if _ then _ else _)
  split
  · rename_i hs
    obtain ⟨parent, heq | ⟨-, heq⟩⟩ := h
    · rw [heq] at hs ⊢
      exact ⟨parent, .inr ⟨hs.1, rfl⟩⟩
    · rw [heq] at hs
      cases hs.1
  · exact h

theorem Slot.Woken.adopt {x : Slot} : ∀ {ps : List ProcIdx} {s : Ptable}, x.Woken (s.slot p) → x.Woken ((adopt i ps s).slot p)
  | [], _, h => h
  | q :: ps, s, h => by
    rw [Ptable.adopt]
    split
    · have hset : x.Woken ((s.setSlot q { s.slot q with parent := some s.initproc }).slot p) := by
        by_cases hp : p = q
        · rw [hp] at h ⊢
          rw [setSlot_self]
          obtain ⟨parent, heq | ⟨hs, heq⟩⟩ := h
          · exact ⟨_, .inl (by rw [heq])⟩
          · exact ⟨_, .inr ⟨hs, by rw [heq]⟩⟩
        · rw [setSlot_of_ne s _ hp]
          exact h
      dsimp only
      split
      · exact (hset.wakeup1 _).adopt
      · exact hset.adopt
    · exact h.adopt

theorem Slot.Woken.change {y : Slot} (h : (s.slot p).Woken y) : Change s a p y := by
  obtain ⟨parent, rfl | ⟨hs, rfl⟩⟩ := h
  · exact .adopted parent
  · exact .wakes hs parent

theorem adopt_ticks (i : ProcIdx) : ∀ (ps : List ProcIdx) (t : Ptable),
    (adopt i ps t).ticks = t.ticks ∧ (adopt i ps t).reaps = t.reaps ∧ (adopt i ps t).currentPolicy = t.currentPolicy
  | [], _ => ⟨rfl, rfl, rfl⟩
  | q :: ps, t => by
    rw [adopt]
    split
    · dsimp only
      split
      · exact adopt_ticks i ps _
      · exact adopt_ticks i ps _
    · exact adopt_ticks i ps t

theorem Change.exit (hi : (s.slot i).state = .running) (status : UInt32) (p : ProcIdx) :
    Change s (.exit i status) p ((s.exit i status).slot p) := by
  have hwoken : ∀ q, (s.slot q).Woken ((adopt i (List.finRange NPROC) (s.wakeup1 (chanOf (s.slot i).parent))).slot q) := fun q =>
    ((Slot.Woken.refl _).wakeup1 _).adopt
  have hticks := (adopt_ticks i (List.finRange NPROC) (s.wakeup1 (chanOf (s.slot i).parent))).1
  unfold Ptable.exit
  dsimp only
  generalize adopt i (List.finRange NPROC) (s.wakeup1 (chanOf (s.slot i).parent)) = u at hwoken hticks
  by_cases hp : p = i
  · subst hp
    obtain ⟨parent, heq | ⟨hs, -⟩⟩ := hwoken p
    · rw [setSlot_self, heq, hticks]
      exact .dies status parent rfl hi
    · cases hi.symm.trans hs
  · rw [setSlot_of_ne _ _ hp]
    exact (hwoken p).change

theorem Change.scan (ha : a.caller = some i) (hi : (s.slot i).state = .running) (c : WaitCall) (p : ProcIdx) :
    Change s a p ((s.scan i c).slot p) := by
  unfold Ptable.scan
  split
  · rename_i q hq
    have hz := (zombieChild_some hq).2
    have hne : i ≠ q := by
      rintro rfl
      cases hi.symm.trans hz
    exact .setPc ha hi hne (.reaped c hz) rfl .user
  · split
    · exact .setSlot (.moves ha hi .user)
    · rename_i hno
      exact .setSlot (.waits c ha hi (Bool.eq_false_iff.mpr fun hk => hno (.inr hk)))

theorem Change.kill (pid : UInt32) (p : ProcIdx) : Change s (.kill pid) p ((s.kill pid).slot p) := by
  unfold Ptable.kill
  split
  · exact .rest
  · rename_i q hq
    exact .setSlot (.killed pid rfl hq)

theorem step_change (h : Inv s) (hs : s.step a = .ok s') (p : ProcIdx) : Change s a p (s'.slot p) := by
  unfold Ptable.step at hs
  cases a with
  | fork i =>
    dsimp only at hs
    split at hs
    · rename_i hat
      split at hs
      · cases hs
        exact .rest
      · rename_i np t halloc
        cases hs
        obtain ⟨hunused, rfl⟩ := allocproc_eq halloc
        have hne : i ≠ np := by
          rintro rfl
          cases hat.1.symm.trans hunused
        exact .setPc rfl hat.1 hne (.allocated hunused) rfl _
    · cases hs
  | forkFails i =>
    dsimp only at hs
    split at hs
    · rename_i np hf
      split at hs <;> cases hs
      rename_i hrun
      exact .setPc rfl hrun (h.forks_ne (.inl hf)) (.dropped (h.embryo i np (.inl hf)).1) rfl _
    · cases hs
  | forkCopies i =>
    dsimp only at hs
    split at hs
    · rename_i np hf
      split at hs <;> cases hs
      rename_i hrun
      exact .setPc rfl hrun (h.forks_ne (.inl hf)) (.adopted (some i)) rfl _
    · cases hs
  | forkEnds i =>
    dsimp only at hs
    split at hs
    · rename_i np hf
      split at hs <;> cases hs
      rename_i hrun
      exact .setPc rfl hrun (h.forks_ne (.inr hf)) (.born i rfl (h.embryo i np (.inr hf)).1) rfl _
    · cases hs
  | exit i status =>
    dsimp only at hs
    split at hs
    · rename_i hat
      split at hs <;> cases hs
      exact .exit hat.1 status p
    · cases hs
  | wait i c =>
    dsimp only at hs
    split at hs <;> cases hs
    rename_i hat
    exact .scan rfl hat.1 c p
  | waitAgain i =>
    dsimp only at hs
    split at hs
    · split at hs <;> cases hs
      rename_i hrun
      exact .scan rfl hrun _ p
    · cases hs
  | sleep i addr =>
    dsimp only at hs
    split at hs <;> cases hs
    rename_i hat
    exact .setSlot (.sleeps addr rfl hat)
  | wakeup addr =>
    cases hs
    exact ((Slot.Woken.refl _).wakeup1 _).change
  | yield i =>
    dsimp only at hs
    split at hs <;> cases hs
    rename_i hrun
    exact .setSlot (.yields rfl hrun)
  | dispatch i =>
    dsimp only at hs
    split at hs <;> cases hs
    rename_i hrun
    exact .setSlot (.dispatched rfl hrun)
  | kill pid =>
    cases hs
    exact .kill pid p
  | tick =>
    cases hs
    exact .ticks rfl
  | schedp policy =>
    dsimp only at hs
    split at hs <;> cases hs
    exact .rest
  | priority i priority =>
    dsimp only at hs
    split at hs <;> cases hs
    rename_i hat
    exact .setSlot (.sets priority rfl hat.1)

/-! ### What the scheduler sees -/

/-- Everything that a step can do to a slot, as the scheduler sees it. -/
inductive Turn (s : Ptable) (a : Act) (p : ProcIdx) : View → Prop
  | rest : Turn s a p (s.slot p).view
  | wakes (h : (s.slot p).state = .sleeping) : Turn s a p { (s.slot p).view with state := .runnable }
  | dispatched (ha : a = .dispatch p) (h : (s.slot p).state = .runnable) : Turn s a p { (s.slot p).view with state := .running }
  | yields (ha : a = .yield p) (h : (s.slot p).state = .running) :
      Turn s a p { (s.slot p).view with
        state := .runnable
        ntickets := if s.currentPolicy = 3 ∧ 1 < (s.slot p).ntickets then (s.slot p).ntickets - 1 else (s.slot p).ntickets }
  | sleeps (ha : a.actor = some p) (h : (s.slot p).state = .running) : Turn s a p { (s.slot p).view with state := .sleeping }
  | allocated (h : (s.slot p).state = .unused) : Turn s a p { (s.slot p).view with state := .embryo }
  | dropped (h : (s.slot p).state = .embryo) : Turn s a p { (s.slot p).view with state := .unused }
  | born (ha : ∃ i, a = .forkEnds i) (h : (s.slot p).state = .embryo) :
      Turn s a p ⟨.runnable, newTickets s.currentPolicy (s.slot p).ntickets, 10⟩
  | dies (ha : a.actor = some p) (h : (s.slot p).state = .running) :
      Turn s a p { (s.slot p).view with state := .zombie, ntickets := 0 }
  | reaped (h : (s.slot p).state = .zombie) (priority : Int) : Turn s a p ⟨.unused, 0, priority⟩
  | sets (priority : Int) (ha : a = .priority p priority) (h : (s.slot p).state = .running) :
      Turn s a p { (s.slot p).view with priority := priority }

theorem Change.turn {x : Slot} (h : Change s a p x) : Turn s a p x.view := by
  cases h with
  | rest | moves | adopted => exact .rest
  | wakes h => exact .wakes h
  | dispatched ha h => exact .dispatched ha h
  | yields ha h => exact .yields ha h
  | sleeps addr ha hat => exact .sleeps (ha ▸ rfl) hat.1
  | waits c ha h => exact .sleeps (Act.actor_of_caller ha) h
  | allocated h => exact .allocated h
  | dropped h => exact .dropped h
  | born i ha h => exact .born ⟨i, ha⟩ h
  | dies status parent ha h => exact .dies (ha ▸ rfl) h
  | reaped c h =>
    cases c with
    | wait status => exact .reaped h (s.slot p).priority
    | waitStat => exact .reaped h 0
  | killed pid ha =>
    by_cases hs : (s.slot p).state = .sleeping
    · rw [if_pos hs]
      exact .wakes hs
    · rw [if_neg hs]
      exact .rest
  | ticks =>
    have hview : (s.slot p).tick.view = (s.slot p).view := by
      unfold Slot.tick
      split <;> rfl
    exact hview ▸ .rest
  | sets priority ha h => exact .sets priority ha h

theorem step_turn (h : Inv s) (hs : s.step a = .ok s') (p : ProcIdx) : Turn s a p (s'.slot p).view := (step_change h hs p).turn

/-! ### The rest of the table -/

/-- A child has been reaped in the step, or none. -/
def Reaps (s s' : Ptable) : Prop :=
  s'.reaps = s.reaps ∨ ∃ p id c, (s.slot p).state = .zombie ∧ s'.reaps = (s.slot p).report id c :: s.reaps

/-- Only `schedp` changes the policy, only the clock the time, and only `wait` reaps. -/
theorem step_rest (hs : s.step a = .ok s') :
    (s'.currentPolicy = s.currentPolicy ∨ a = .schedp s'.currentPolicy ∧ 1 ≤ s'.currentPolicy ∧ s'.currentPolicy ≤ 3) ∧
    (s'.ticks = s.ticks ∨ a = .tick) ∧ Reaps s s' := by
  have hscan : ∀ i c, (s.scan i c).currentPolicy = s.currentPolicy ∧ (s.scan i c).ticks = s.ticks ∧ Reaps s (s.scan i c) := by
    intro i c
    unfold Ptable.scan
    split
    · rename_i q hq
      exact ⟨rfl, rfl, .inr ⟨q, _, c, (zombieChild_some hq).2, rfl⟩⟩
    · split <;> exact ⟨rfl, rfl, .inl rfl⟩
  unfold Ptable.step at hs
  cases a with
  | schedp policy =>
    dsimp only at hs
    split at hs <;> cases hs
    rename_i hpolicy
    exact ⟨.inr ⟨rfl, hpolicy⟩, .inl rfl, .inl rfl⟩
  | fork i =>
    dsimp only at hs
    split at hs
    · split at hs
      · cases hs
        exact ⟨.inl rfl, .inl rfl, .inl rfl⟩
      · rename_i np t halloc
        cases hs
        obtain ⟨-, rfl⟩ := allocproc_eq halloc
        exact ⟨.inl rfl, .inl rfl, .inl rfl⟩
    · cases hs
  | forkFails i | forkCopies i | forkEnds i =>
    dsimp only at hs
    split at hs
    · split at hs <;> cases hs
      exact ⟨.inl rfl, .inl rfl, .inl rfl⟩
    · cases hs
  | exit i status =>
    dsimp only at hs
    split at hs
    · split at hs <;> cases hs
      have hadopt := adopt_ticks i (List.finRange NPROC) (s.wakeup1 (chanOf (s.slot i).parent))
      exact ⟨.inl hadopt.2.2, .inl hadopt.1, .inl hadopt.2.1⟩
    · cases hs
  | wait i c =>
    dsimp only at hs
    split at hs <;> cases hs
    exact ⟨.inl (hscan i c).1, .inl (hscan i c).2.1, (hscan i c).2.2⟩
  | waitAgain i =>
    dsimp only at hs
    split at hs
    · split at hs <;> cases hs
      exact ⟨.inl (hscan i _).1, .inl (hscan i _).2.1, (hscan i _).2.2⟩
    · cases hs
  | kill pid =>
    cases hs
    unfold Ptable.kill
    split <;> exact ⟨.inl rfl, .inl rfl, .inl rfl⟩
  | wakeup addr =>
    cases hs
    exact ⟨.inl rfl, .inl rfl, .inl rfl⟩
  | tick =>
    cases hs
    exact ⟨.inl rfl, .inr rfl, .inl rfl⟩
  | sleep i addr | yield i | dispatch i | priority i priority =>
    dsimp only at hs
    split at hs <;> cases hs
    exact ⟨.inl rfl, .inl rfl, .inl rfl⟩

end Ptable
end Xv6
