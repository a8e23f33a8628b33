import Xv6.Pipe

/-! A pipe is a queue of bytes, in every interleaving of its readers and writers. -/

namespace Xv6
open Outcome (bind_eq_ok)
open Machine
namespace Pipe
variable {p : Pipe}

/-- The bytes in the pipe, the oldest first. -/
def contents (p : Pipe) : List UInt8 := Ring.contents p.data p.nread p.nwrite

def Bounded (p : Pipe) : Prop := (p.nwrite - p.nread).toNat ≤ PIPESIZE

@[simp] theorem length_contents (p : Pipe) : p.contents.length = (p.nwrite - p.nread).toNat := Ring.length_contents

theorem full_iff : p.Full ↔ p.contents.length = PIPESIZE := by
  rw [length_contents, Full]
  constructor
  · intro h
    rw [h, UInt32.add_comm, UInt32.add_sub_cancel]
    rfl
  · intro h
    rw [UInt32.add_comm, ← h, UInt32.ofNat_toNat, UInt32.sub_add_cancel]

theorem empty_iff : p.Empty ↔ p.contents = [] := by
  constructor
  · intro h
    rw [contents, show p.nread = p.nwrite from h, Ring.contents_self]
  · intro h
    by_contra hne
    rw [contents, Ring.contents_pop hne] at h
    cases h

theorem put_contents (hb : p.Bounded) (hfull : ¬p.Full) (c : UInt8) :
    (p.put c).contents = p.contents ++ [c] ∧ (p.put c).Bounded := by
  have hroom : (p.nwrite - p.nread).toNat < PIPESIZE :=
    lt_of_le_of_ne hb fun h => hfull (full_iff.mpr ((length_contents p).trans h))
  have hput : (p.put c).contents = p.contents ++ [c] := Ring.contents_push (by decide) (by decide) hroom c
  refine ⟨hput, ?_⟩
  rw [Bounded, ← length_contents, hput, List.length_append, length_contents]
  exact hroom

theorem fill_spec : ∀ (cs : List UInt8) {p : Pipe}, p.Bounded →
    ∃ stored, cs = stored ++ (p.fill cs).2 ∧ (p.fill cs).1.contents = p.contents ++ stored ∧ (p.fill cs).1.Bounded ∧
      ((p.fill cs).2 ≠ [] → (p.fill cs).1.Full)
  | [], p, hb => ⟨[], rfl, (List.append_nil _).symm, hb, fun h => absurd rfl h⟩
  | c :: cs, p, hb => by
    by_cases hfull : p.Full
    · rw [fill, if_pos hfull]
      exact ⟨[], rfl, (List.append_nil _).symm, hb, fun _ => hfull⟩
    · rw [fill, if_neg hfull]
      obtain ⟨hput, hb'⟩ := put_contents hb hfull c
      obtain ⟨stored, hcs, hcontents, hrest⟩ := fill_spec cs hb'
      refine ⟨c :: stored, congrArg (c :: ·) hcs, ?_, hrest⟩
      rw [hcontents, hput, List.append_assoc, List.singleton_append]

theorem fill_of_full (hfull : p.Full) (cs : List UInt8) : p.fill cs = (p, cs) := by
  cases cs with
  | nil => rfl
  | cons c cs => rw [fill, if_pos hfull]

theorem fill_open : ∀ (cs : List UInt8) (p : Pipe), (p.fill cs).1.readopen = p.readopen ∧ (p.fill cs).1.writeopen = p.writeopen
  | [], _ => ⟨rfl, rfl⟩
  | c :: cs, p => by
    rw [fill]
    split
    · exact ⟨rfl, rfl⟩
    · exact fill_open cs (p.put c)

theorem fill_left_iff (hb : p.Bounded) (cs : List UInt8) : (p.fill cs).2 ≠ [] ↔ PIPESIZE < p.contents.length + cs.length := by
  obtain ⟨stored, hcs, hcontents, hb', hfull⟩ := fill_spec cs hb
  have hlen : cs.length = stored.length + (p.fill cs).2.length := by
    rw [← List.length_append, ← hcs]
  have hused : (p.fill cs).1.contents.length = p.contents.length + stored.length := by
    rw [hcontents, List.length_append]
  constructor
  · intro hne
    have hpos := List.length_pos_iff.mpr hne
    have := full_iff.mp (hfull hne)
    omega
  · intro hlt hnil
    rw [Bounded, ← length_contents] at hb'
    rw [hnil, List.length_nil] at hlen
    omega

theorem drain_spec : ∀ (n : Nat) {p : Pipe}, p.Bounded →
    p.contents = (p.drain n).1 ++ (p.drain n).2.contents ∧ (p.drain n).2.Bounded
  | 0, p, hb => ⟨rfl, hb⟩
  | n + 1, p, hb => by
    rw [drain]
    split
    · exact ⟨rfl, hb⟩
    · rename_i hne
      have hpop : p.contents = p.data (Ring.cell PIPESIZE p.nread) :: contents { p with nread := p.nread + 1 } :=
        Ring.contents_pop hne
      have hb' : Bounded { p with nread := p.nread + 1 } := by
        have hlen := congrArg List.length hpop
        rw [List.length_cons, length_contents, length_contents] at hlen
        unfold Bounded at hb ⊢
        dsimp only at hb hlen ⊢
        omega
      obtain ⟨hdrain, hb''⟩ := drain_spec n hb'
      exact ⟨by rw [hpop, hdrain, List.cons_append], hb''⟩

end Pipe

namespace PipeSys
open Pipe
variable {ι : Type} [DecidableEq ι] {s s' : PipeSys ι} {a : Act ι} {i : ι}

inductive Changes (s s' : PipeSys ι) : Prop
  | same (pipe : s'.pipe = s.pipe) (stored : s'.stored = s.stored) (taken : s'.taken = s.taken)
  | filled (rest : List UInt8) (pipe : s'.pipe = (s.pipe.fill rest).1)
      (stored : s'.stored = s.stored ++ rest.take (rest.length - (s.pipe.fill rest).2.length)) (taken : s'.taken = s.taken)
  | drained (n : Nat) (pipe : s'.pipe = (s.pipe.drain n).2) (stored : s'.stored = s.stored)
      (taken : s'.taken = s.taken ++ (s.pipe.drain n).1)
  | closed (data : s'.pipe.data = s.pipe.data) (nread : s'.pipe.nread = s.pipe.nread) (nwrite : s'.pipe.nwrite = s.pipe.nwrite)
      (stored : s'.stored = s.stored) (taken : s'.taken = s.taken)

theorem acquire_eq {pc : Pc} (h : s.acquire i pc = .ok s') : s.lock = none ∧ s' = { s with lock := some i }.setPc i pc := by
  unfold acquire at h
  split at h
  · cases h
  · split at h
    · rename_i hlock
      exact ⟨hlock, (Outcome.ok.inj h).symm⟩
    · cases h

omit [DecidableEq ι] in
theorem wakeup_eq {c : Chan} (h : s.wakeup c = .ok s') : s.ptable = none ∧ s' = { s with task := fun i => (s.task i).wake c } := by
  unfold wakeup at h
  split at h
  · rename_i hptable
    exact ⟨hptable, (Outcome.ok.inj h).symm⟩
  · cases h

theorem doze_eq {pc : Pc} (h : s.doze i pc = .ok s') :
    s.ptable = none ∧ s' = { s with ptable := some i, lock := none }.setPc i pc := by
  unfold doze at h
  split at h
  · rename_i hptable
    exact ⟨hptable, (Outcome.ok.inj h).symm⟩
  · cases h

theorem run_changes (h : s.run i = .ok s') : Changes s s' := by
  unfold run at h
  split at h
  · cases h
  · obtain ⟨-, rfl⟩ := acquire_eq h
    exact .same rfl rfl rfl
  · split at h
    · split at h <;> cases h <;> exact .same rfl rfl rfl
    · cases h
      exact .drained _ rfl rfl rfl
  · obtain ⟨-, rfl⟩ := doze_eq h
    exact .same rfl rfl rfl
  · cases h
    exact .same rfl rfl rfl
  · obtain ⟨s₁, hwake, h⟩ := bind_eq_ok.mp h
    obtain ⟨-, rfl⟩ := wakeup_eq hwake
    cases h
    exact .same rfl rfl rfl
  · obtain ⟨-, rfl⟩ := acquire_eq h
    exact .same rfl rfl rfl
  · dsimp only at h
    split at h
    · cases h
      exact .filled _ rfl rfl rfl
    · split at h <;> cases h <;> exact .filled _ rfl rfl rfl
  · obtain ⟨s₁, hwake, h⟩ := bind_eq_ok.mp h
    obtain ⟨-, rfl⟩ := wakeup_eq hwake
    cases h
    exact .same rfl rfl rfl
  · obtain ⟨-, rfl⟩ := doze_eq h
    exact .same rfl rfl rfl
  · cases h
    exact .same rfl rfl rfl
  · obtain ⟨s₁, hwake, h⟩ := bind_eq_ok.mp h
    obtain ⟨-, rfl⟩ := wakeup_eq hwake
    cases h
    exact .same rfl rfl rfl
  · rename_i writable _
    obtain ⟨s₁, hacquire, h⟩ := bind_eq_ok.mp h
    obtain ⟨-, rfl⟩ := acquire_eq hacquire
    cases h
    cases writable <;> exact .closed rfl rfl rfl rfl rfl
  · obtain ⟨s₁, hwake, h⟩ := bind_eq_ok.mp h
    obtain ⟨-, rfl⟩ := wakeup_eq hwake
    cases h
    exact .same rfl rfl rfl

theorem step_changes (h : s.step a = .ok s') : Changes s s' := by
  cases a with
  | call i c =>
    unfold step at h
    dsimp only at h
    split at h <;> cases h
    exact .same rfl rfl rfl
  | run i =>
    unfold step at h
    dsimp only at h
    split at h
    · exact run_changes h
    · cases h
  | kill i =>
    unfold step at h
    dsimp only at h
    split at h <;> cases h
    exact .same rfl rfl rfl

/-- The bytes taken so far and those in the pipe are the bytes stored so far. -/
structure Queue (s : PipeSys ι) : Prop where
  bounded : s.pipe.Bounded
  stored : s.stored = s.taken ++ s.pipe.contents

theorem Queue.step (h : Queue s) (hs : s.step a = .ok s') : Queue s' := by
  obtain ⟨hpipe, hstored, htaken⟩ | ⟨rest, hpipe, hstored, htaken⟩ | ⟨n, hpipe, hstored, htaken⟩ |
    ⟨hdata, hnread, hnwrite, hstored, htaken⟩ := step_changes hs
  · exact ⟨hpipe ▸ h.bounded, by rw [hstored, htaken, hpipe, h.stored]⟩
  · obtain ⟨new, hrest, hcontents, hb, -⟩ := fill_spec rest h.bounded
    refine ⟨hpipe ▸ hb, ?_⟩
    have htake : rest.take (rest.length - (s.pipe.fill rest).2.length) = new := by
      have hlen : rest.length = new.length + (s.pipe.fill rest).2.length := by rw [← List.length_append, ← hrest]
      rw [hlen, Nat.add_sub_cancel]
      conv_lhs => rw [hrest]
      exact List.take_left
    rw [hstored, htake, htaken, hpipe, hcontents, h.stored, List.append_assoc]
  · obtain ⟨hcontents, hb⟩ := drain_spec n h.bounded
    refine ⟨hpipe ▸ hb, ?_⟩
    rw [hstored, htaken, hpipe, h.stored, hcontents, List.append_assoc]
  · have hcontents : s'.pipe.contents = s.pipe.contents := by rw [Pipe.contents, hdata, hnread, hnwrite, Pipe.contents]
    refine ⟨?_, by rw [hstored, htaken, hcontents, h.stored]⟩
    rw [Pipe.Bounded, hnread, hnwrite]
    exact h.bounded

omit [DecidableEq ι] in
theorem Queue.fresh (data : Fin PIPESIZE → UInt8) : Queue (fresh data : PipeSys ι) :=
  ⟨show (0 - 0 : UInt32).toNat ≤ PIPESIZE by decide, Ring.contents_self.symm⟩

/-- In every interleaving what has been read is what has been written, up to the bytes still in the pipe. -/
theorem pipe_fifo (hs : Reachable step (fun _ _ => True) (fun s => ∃ data, s = fresh data) s) :
    (s.pipe.nwrite - s.pipe.nread).toNat ≤ PIPESIZE ∧ s.stored = s.taken ++ s.pipe.contents ∧
      s.pipe.contents.length = (s.pipe.nwrite - s.pipe.nread).toNat := by
  have hq : Queue s := hs.invariant (P := Queue) (fun s ⟨data, h⟩ => h ▸ .fresh data) fun s a s' hq _ h => hq.step h
  exact ⟨hq.bounded, hq.stored, length_contents _⟩

/-- Three bytes are written while a reader waits, and two of them are read. -/
theorem pipe_fifo_three : ∃ s : PipeSys (Fin 2), s.stored = [1, 2, 3] ∧ s.taken = [1, 2] ∧ s.stored = s.taken ++ s.pipe.contents := by
  obtain ⟨s, hs, hstored, htaken⟩ : ∃ s, runList step (fresh fun _ => 0 : PipeSys (Fin 2))
      [.call 0 (.piperead 2), .run 0, .run 0, .run 0, .run 0, .call 1 (.pipewrite (fun k => .ofNat (k + 1)) 3), .run 1, .run 1, .run 1,
        .run 0, .run 0, .run 0] = .ok s ∧ s.stored = [1, 2, 3] ∧ s.taken = [1, 2] := by
    decide +kernel
  exact ⟨s, hstored, htaken, (pipe_fifo (.runList (fun _ _ => trivial) (.init ⟨_, rfl⟩) hs)).2.1⟩

end PipeSys
end Xv6
