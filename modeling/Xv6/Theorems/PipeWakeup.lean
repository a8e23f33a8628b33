import Xv6.Theorems.Pipe

/-! No process sleeps on a pipe that it could go on with, except when a writer gives up with bytes in the pipe that it has
    told no reader of. -/

namespace Xv6
open Function (update_of_ne)
open Outcome (bind_eq_ok)
open Machine

namespace Pipe

/-- What a process that sleeps on the channel waits for has not come. -/
def Blocked (p : Pipe) : Chan → Prop
  | .nread => p.Empty ∧ p.writeopen = true
  | .nwrite => p.Full ∧ p.readopen = true

def Pc.holds : Pc → Bool
  | .readLoop _ | .readSleep _ | .readWakeup _ | .writeLoop .. | .writeWakeup .. | .writeSleep .. | .writeDone _ | .closeWakeup _ => true
  | _ => false

/-- The channel on which it is about to be SLEEPING, with `ptable.lock`. -/
def Pc.dozes : Pc → Option Chan
  | .readDoze _ => some .nread
  | .writeDoze .. => some .nwrite
  | _ => none

/-- The channel on which it may be SLEEPING at this point. -/
def Pc.sleeps : Pc → Option Chan
  | .readAcquire _ => some .nread
  | .writeAcquire .. => some .nwrite
  | _ => none

/-- It has seen that it has to sleep on this channel. -/
def Pc.tested : Pc → Option Chan
  | .readSleep _ => some .nread
  | .writeWakeup .. | .writeSleep .. => some .nwrite
  | _ => none

/-- It will wake those who sleep on this channel before it releases the lock. -/
def Pc.wakes : Pc → Option Chan
  | .readWakeup _ => some .nwrite
  | .writeWakeup .. | .writeDone _ => some .nread
  | .closeWakeup writable => some (if writable then .nread else .nwrite)
  | _ => none

theorem Pc.holds_of_tested {pc : Pc} {c : Chan} (h : pc.tested = some c) : pc.holds = true := by
  cases pc <;> first | rfl | cases h

theorem Pc.holds_of_wakes {pc : Pc} {c : Chan} (h : pc.wakes = some c) : pc.holds = true := by
  cases pc <;> first | rfl | cases h

/-- The process sleeps on the channel, or is about to. -/
def Task.Waits (t : Task) (c : Chan) : Prop := t.sleeping = some c ∨ t.pc.dozes = some c

@[simp] theorem Task.wake_pc (c : Chan) (t : Task) : (t.wake c).pc = t.pc := by
  unfold wake
  split <;> rfl

theorem Task.wake_sleeping {c c' : Chan} {t : Task} (h : (t.wake c).sleeping = some c') : t.sleeping = some c' ∧ c' ≠ c := by
  unfold wake at h
  split at h
  · cases h
  · rename_i hne
    exact ⟨h, fun he => hne (he ▸ h)⟩

end Pipe

namespace PipeSys
open Pipe
variable {ι : Type} {s s' : PipeSys ι} {a : Act ι} {i : ι}

/-- No lost wakeup: when the pipe's lock is free, those who sleep have to. -/
def Awake (s : PipeSys ι) : Prop :=
  s.lock = none → ∀ i,
    ((s.task i).sleeping = some .nread → s.pipe.Empty ∧ s.pipe.writeopen = true) ∧
    ((s.task i).sleeping = some .nwrite → s.pipe.Full ∧ s.pipe.readopen = true)

/-- The writer finds no room for all its bytes and cannot wait for it: it was killed or the read end is closed. There is
    some room, though. -/
def GivesUp (s : PipeSys ι) (i : ι) : Prop :=
  ∃ rest n, (s.task i).pc = .writeLoop rest n ∧ (s.pipe.readopen = false ∨ (s.task i).killed = true) ∧
    ¬s.pipe.Full ∧ PIPESIZE < (s.pipe.nwrite - s.pipe.nread).toNat + rest.length

/-- No writer gives up in this way while a reader waits. -/
def Tells (s : PipeSys ι) : Act ι → Prop
  | .run i => GivesUp s i → ∀ j, ¬(s.task j).Waits .nread
  | _ => True

structure Inv (s : PipeSys ι) : Prop where
  lock : ∀ i, s.lock = some i ↔ (s.task i).pc.holds = true
  ptable : ∀ i, s.ptable = some i ↔ (s.task i).pc.dozes ≠ none
  asleep : ∀ i c, (s.task i).sleeping = some c → (s.task i).pc.sleeps = some c
  tested : ∀ i c, (s.task i).pc.tested = some c → s.pipe.Blocked c
  waits : ∀ i c, (s.task i).Waits c → s.pipe.Blocked c ∨ ∃ h, (s.task h).pc.wakes = some c

theorem Inv.fresh (data : Fin PIPESIZE → UInt8) : Inv (fresh data : PipeSys ι) where
  lock i := ⟨fun h => (nomatch h), fun h => (nomatch h)⟩
  ptable i := ⟨fun h => (nomatch h), fun h => absurd rfl h⟩
  asleep i c h := nomatch h
  tested i c h := nomatch h
  waits i c h := by rcases h with h | h <;> cases h

section
variable (h : Inv s)
include h

theorem Inv.holder {j : ι} (hi : (s.task i).pc.holds = true) (hj : (s.task j).pc.holds = true) : j = i :=
  Option.some.inj (((h.lock j).mpr hj).symm.trans ((h.lock i).mpr hi))

theorem Inv.not_holds (hlock : s.lock = none) (j : ι) : (s.task j).pc.holds = false := by
  by_contra hj
  have := (h.lock j).mpr (by simpa using hj)
  rw [hlock] at this
  cases this

theorem Inv.awake : Awake s := by
  intro hlock i
  have hno : ∀ c k, (s.task k).pc.wakes ≠ some c := by
    intro c k hk
    have hk := Pc.holds_of_wakes hk
    rw [h.not_holds hlock k] at hk
    cases hk
  exact ⟨fun hi => (h.waits i .nread (Or.inl hi)).resolve_right fun ⟨k, hk⟩ => hno _ k hk,
    fun hi => (h.waits i .nwrite (Or.inl hi)).resolve_right fun ⟨k, hk⟩ => hno _ k hk⟩

/-! ### Steps -/

/-- Only process `i` goes on; those who sleep on `woken` are woken up. -/
structure Moves (s s' : PipeSys ι) (i : ι) (woken : Option Chan) : Prop where
  pc : ∀ j, j ≠ i → (s'.task j).pc = (s.task j).pc
  sleeping : ∀ j, j ≠ i → ∀ c, (s'.task j).sleeping = some c → (s.task j).sleeping = some c ∧ woken ≠ some c
  /-- `wakeup` needs `ptable.lock`. -/
  ptable : woken ≠ none → s.ptable = none

theorem Inv.locked {woken : Option Chan} {pc : Pc} (hm : Moves s s' i woken) (hpc : (s'.task i).pc = pc)
    (hawake : (s'.task i).sleeping = none) (hfree : ∀ j, j ≠ i → (s.task j).pc.holds = false)
    (hlock : s'.lock = if pc.holds then some i else none)
    (hptable : ∀ j, s'.ptable = some j ↔ j ≠ i ∧ s.ptable = some j ∨ j = i ∧ pc.dozes ≠ none)
    (htested : ∀ c, pc.tested = some c ∨ pc.dozes = some c → s'.pipe.Blocked c)
    (hwaits : ∀ j, j ≠ i → ∀ c, (s.task j).Waits c → woken ≠ some c → s.pipe.Blocked c ∨ (s.task i).pc.wakes = some c →
      s'.pipe.Blocked c ∨ pc.wakes = some c) : Inv s' where
  lock j := by
    by_cases hj : j = i
    · subst hj
      rw [hlock, hpc]
      split
      · simp [*]
      · simp [*]
    · rw [hm.pc j hj, hfree j hj, hlock]
      split
      · simp [Ne.symm hj]
      · simp
  ptable j := by
    rw [hptable]
    by_cases hj : j = i
    · subst hj
      simp [hpc]
    · rw [hm.pc j hj, ← h.ptable j]
      simp [hj]
  asleep j c hc := by
    by_cases hj : j = i
    · subst hj
      rw [hawake] at hc
      cases hc
    · rw [hm.pc j hj]
      exact h.asleep j c (hm.sleeping j hj c hc).1
  tested j c hc := by
    by_cases hj : j = i
    · subst hj
      exact htested c (Or.inl (hpc ▸ hc))
    · rw [hm.pc j hj] at hc
      have := Pc.holds_of_tested hc
      rw [hfree j hj] at this
      cases this
  waits j c hc := by
    by_cases hj : j = i
    · subst hj
      rcases hc with hc | hc
      · rw [hawake] at hc
        cases hc
      · exact Or.inl (htested c (Or.inr (hpc ▸ hc)))
    · have hbefore : (s.task j).Waits c ∧ woken ≠ some c := by
        rcases hc with hc | hc
        · exact ⟨Or.inl (hm.sleeping j hj c hc).1, (hm.sleeping j hj c hc).2⟩
        · rw [hm.pc j hj] at hc
          refine ⟨Or.inr hc, fun hw => ?_⟩
          have hp := (h.ptable j).mpr (by rw [hc]; exact Option.some_ne_none c)
          rw [hm.ptable (by rw [hw]; exact Option.some_ne_none c)] at hp
          cases hp
      have hback : s.pipe.Blocked c ∨ (s.task i).pc.wakes = some c := by
        rcases h.waits j c hbefore.1 with hb | ⟨k, hk⟩
        · exact Or.inl hb
        · by_cases hki : k = i
          · exact Or.inr (hki ▸ hk)
          · have := Pc.holds_of_wakes hk
            rw [hfree k hki] at this
            cases this
      exact (hwaits j hj c hbefore.1 hbefore.2 hback).imp_right fun hw => ⟨i, hpc ▸ hw⟩

theorem Inv.unlocked (hm : Moves s s' i none) (hpipe : s'.pipe = s.pipe) (hlock : s'.lock = s.lock)
    (hholds : (s.task i).pc.holds = false) (hholds' : (s'.task i).pc.holds = false)
    (hptable : ∀ j, s'.ptable = some j ↔ j ≠ i ∧ s.ptable = some j) (hdozes : (s'.task i).pc.dozes = none)
    (hasleep : ∀ c, (s'.task i).sleeping = some c → (s'.task i).pc.sleeps = some c ∧ (s.task i).Waits c) : Inv s' where
  lock j := by
    rw [hlock, h.lock]
    by_cases hj : j = i
    · subst hj
      rw [hholds, hholds']
    · rw [hm.pc j hj]
  ptable j := by
    rw [hptable]
    by_cases hj : j = i
    · subst hj
      simp [hdozes]
    · rw [hm.pc j hj, ← h.ptable j]
      simp [hj]
  asleep j c hc := by
    by_cases hj : j = i
    · subst hj
      exact (hasleep c hc).1
    · rw [hm.pc j hj]
      exact h.asleep j c (hm.sleeping j hj c hc).1
  tested j c hc := by
    rw [hpipe]
    by_cases hj : j = i
    · subst hj
      have := Pc.holds_of_tested hc
      rw [hholds'] at this
      cases this
    · exact h.tested j c (hm.pc j hj ▸ hc)
  waits j c hc := by
    have hbefore : (s.task j).Waits c := by
      by_cases hj : j = i
      · subst hj
        rcases hc with hc | hc
        · exact (hasleep c hc).2
        · rw [hdozes] at hc
          cases hc
      · rcases hc with hc | hc
        · exact Or.inl (hm.sleeping j hj c hc).1
        · exact Or.inr (hm.pc j hj ▸ hc)
    rw [hpipe]
    refine (h.waits j c hbefore).imp_right fun ⟨k, hk⟩ => ⟨k, ?_⟩
    by_cases hki : k = i
    · subst hki
      have := Pc.holds_of_wakes hk
      rw [hholds] at this
      cases this
    · rw [hm.pc k hki, hk]

theorem Inv.alone (hi : (s.task i).pc.holds = true) (j : ι) (hj : j ≠ i) : (s.task j).pc.holds = false := by
  by_contra hholds
  exact hj (h.holder hi (by simpa using hholds))

theorem Inv.ptable_same {pc : Pc} (hi : (s.task i).pc.dozes = none) (hpc : pc.dozes = none) (j : ι) :
    s.ptable = some j ↔ j ≠ i ∧ s.ptable = some j ∨ j = i ∧ pc.dozes ≠ none := by
  rw [hpc]
  constructor
  · intro hj
    refine Or.inl ⟨?_, hj⟩
    rintro rfl
    exact (h.ptable j).mp hj hi
  · rintro (⟨-, hj⟩ | ⟨-, hj⟩)
    · exact hj
    · exact absurd rfl hj

theorem Inv.same {woken : Option Chan} {pc : Pc} (hm : Moves s s' i woken) (hwoken : (s.task i).pc.wakes = woken)
    (hpc : (s'.task i).pc = pc) (hawake : (s'.task i).sleeping = none) (hpipe : s'.pipe = s.pipe)
    (hfree : ∀ j, j ≠ i → (s.task j).pc.holds = false) (hlock : s'.lock = if pc.holds then some i else none)
    (hptable : ∀ j, s'.ptable = some j ↔ j ≠ i ∧ s.ptable = some j ∨ j = i ∧ pc.dozes ≠ none)
    (htested : ∀ c, pc.tested = some c ∨ pc.dozes = some c → s.pipe.Blocked c) : Inv s' := by
  refine h.locked hm hpc hawake hfree hlock hptable (hpipe ▸ htested) fun j _ c _ hne hback => Or.inl ?_
  rw [hwoken] at hback
  exact hpipe ▸ hback.resolve_right hne

end

variable [DecidableEq ι]

theorem setPc_pc (s : PipeSys ι) (i : ι) (pc : Pc) : ((s.setPc i pc).task i).pc = pc := by
  simp [setPc, setTask]

theorem setPc_sleeping (s : PipeSys ι) (i : ι) (pc : Pc) : ((s.setPc i pc).task i).sleeping = (s.task i).sleeping := by
  simp [setPc, setTask]

theorem wake_sleeping_none {t : Task} (h : t.sleeping = none) (c : Chan) : t.wake c = t := by
  rw [Task.wake, if_neg (by rw [h]; exact fun he => nomatch he)]

theorem Moves.update {t : Task} (h : s'.task = Function.update s.task i t) : Moves s s' i none where
  pc j hj := by rw [h, update_of_ne hj]
  sleeping j hj c hc := by
    rw [h, update_of_ne hj] at hc
    exact ⟨hc, Option.some_ne_none c |>.symm⟩
  ptable h := absurd rfl h

theorem Moves.wake {t : Task} {c : Chan} (hp : s.ptable = none) (h : s'.task = Function.update (fun j => (s.task j).wake c) i t) :
    Moves s s' i (some c) where
  pc j hj := by rw [h, update_of_ne hj, Task.wake_pc]
  sleeping j hj c' hc := by
    rw [h, update_of_ne hj] at hc
    obtain ⟨hc, hne⟩ := Task.wake_sleeping hc
    exact ⟨hc, fun he => hne (Option.some.inj he).symm⟩
  ptable _ := hp

section
variable (h : Inv s)
include h

theorem Inv.acquire {pc : Pc} (hi : (s.task i).pc.dozes = none) (hi' : (s.task i).pc.wakes = none)
    (hsleep : (s.task i).sleeping = none) (hholds : pc.holds = true) (hdozes : pc.dozes = none) (htested : pc.tested = none)
    (hs : s.acquire i pc = .ok s') : Inv s' := by
  obtain ⟨hlock, rfl⟩ := acquire_eq hs
  refine h.same (Moves.update rfl) hi' (setPc_pc _ i pc) ((setPc_sleeping _ i pc).trans hsleep) rfl
    (fun j _ => h.not_holds hlock j) (by rw [if_pos hholds]; rfl) (h.ptable_same hi hdozes) ?_
  rintro c (hc | hc)
  · rw [htested] at hc
    cases hc
  · rw [hdozes] at hc
    cases hc

theorem Inv.doze {pc : Pc} {c : Chan} (hi : (s.task i).pc.tested = some c) (hi' : (s.task i).pc.wakes = none)
    (hsleep : (s.task i).sleeping = none) (hholds : pc.holds = false) (hdozes : pc.dozes = some c) (htested : pc.tested = none)
    (hs : s.doze i pc = .ok s') : Inv s' := by
  obtain ⟨hptable, rfl⟩ := doze_eq hs
  refine h.same (Moves.update rfl) hi' (setPc_pc _ i pc) ((setPc_sleeping _ i pc).trans hsleep) rfl
    (h.alone (Pc.holds_of_tested hi)) (by rw [hholds]; rfl) ?_ ?_
  · intro j
    show some i = some j ↔ _
    rw [hptable, hdozes]
    simp [eq_comm]
  · rintro c' (hc | hc)
    · rw [htested] at hc
      cases hc
    · rw [hdozes] at hc
      exact Option.some.inj hc ▸ h.tested i c hi

theorem Inv.sleep {pc : Pc} {c : Chan} (hi : (s.task i).pc.dozes = some c) (hi' : (s.task i).pc.holds = false)
    (hholds : pc.holds = false) (hdozes : pc.dozes = none) (hsleeps : pc.sleeps = some c) : Inv (s.sleep i c pc) := by
  have hpc : ((s.sleep i c pc).task i) = { s.task i with pc := pc, sleeping := some c } := by
    simp [PipeSys.sleep, setTask]
  refine h.unlocked (Moves.update rfl) rfl rfl hi' (hpc ▸ hholds) ?_ (hpc ▸ hdozes) ?_
  · intro j
    constructor
    · intro hj
      cases hj
    · rintro ⟨hne, hj⟩
      have hi := (h.ptable i).mpr (by rw [hi]; exact Option.some_ne_none c)
      exact absurd (Option.some.inj (hj.symm.trans hi)) hne
  · intro c' hc
    rw [hpc] at hc ⊢
    obtain rfl : c = c' := Option.some.inj hc
    exact ⟨hsleeps, Or.inr hi⟩

theorem Inv.wakeup {c : Chan} {pc : Pc} {t : PipeSys ι} (hi : (s.task i).pc.wakes = some c) (hsleep : (s.task i).sleeping = none)
    (hs : s.wakeup c = .ok t) (htask : s'.task = (t.setPc i pc).task) (hpipe : s'.pipe = t.pipe)
    (hlock : s'.lock = if pc.holds then t.lock else none) (hptable : s'.ptable = t.ptable) (hdozes : pc.dozes = none)
    (htested : ∀ c, pc.tested = some c → (s.task i).pc.tested = some c) : Inv s' := by
  obtain ⟨hp, rfl⟩ := wakeup_eq hs
  have hholds := Pc.holds_of_wakes hi
  have hi' : (s.task i).pc.dozes = none := by
    cases hpc : (s.task i).pc <;> first | rfl | (rw [hpc] at hi; cases hi)
  have hawake : ((s.task i).wake c).sleeping = none := by rw [wake_sleeping_none hsleep, hsleep]
  have hpc : (s'.task i).pc = pc := htask ▸ setPc_pc _ i pc
  refine h.same (Moves.wake hp htask) hi hpc ?_ hpipe (h.alone hholds) ?_ ?_ ?_
  · rw [htask, setPc_sleeping, hawake]
  · rw [hlock]
    split
    · exact (h.lock i).mpr hholds
    · rfl
  · rw [hptable]
    exact h.ptable_same hi' hdozes
  · rintro c (hc | hc)
    · exact h.tested i c (htested c hc)
    · rw [hdozes] at hc
      cases hc

theorem Inv.writeLoop {rest : List UInt8} {n : Int} (hb : s.pipe.Bounded) (hpc : (s.task i).pc = .writeLoop rest n)
    (hsleep : (s.task i).sleeping = none) (htells : GivesUp s i → ∀ j, ¬(s.task j).Waits .nread) (hs : s.run i = .ok s') : Inv s' := by
  have hholds : (s.task i).pc.holds = true := by rw [hpc]; rfl
  have hdozes : (s.task i).pc.dozes = none := by rw [hpc]; rfl
  have hlock := (h.lock i).mpr hholds
  -- Whoever waits is blocked; writers wait only while the pipe is full, and then nothing is stored.
  have hfull : ∀ c, s.pipe.Blocked c ∨ (s.task i).pc.wakes = some c → c = .nread ∨ (s.pipe.fill rest).1.Blocked c := by
    intro c hback
    have hblocked := hback.resolve_right (by rw [hpc]; exact fun he => nomatch he)
    cases c with
    | nread => exact Or.inl rfl
    | nwrite =>
      rw [fill_of_full hblocked.1]
      exact Or.inr hblocked
  have hwrites : ∀ (pipe : Pipe) (stored : List UInt8) (pc : Pc), pipe = (s.pipe.fill rest).1 → pc.holds = true → pc.dozes = none →
      pc.wakes = some .nread → (∀ c, pc.tested = some c → pipe.Blocked c) →
      Inv ({ s with pipe := pipe, stored := stored }.setPc i pc) := by
    rintro pipe stored pc rfl hholds' hdozes' hwakes htested
    refine h.locked (Moves.update rfl) (setPc_pc _ i pc) ((setPc_sleeping _ i pc).trans hsleep) (h.alone hholds) ?_
      (h.ptable_same hdozes hdozes') ?_ fun j _ c _ _ hback => ?_
    · rw [if_pos hholds']
      exact hlock
    · rintro c (hc | hc)
      · exact htested c hc
      · rw [hdozes'] at hc
        cases hc
    · rcases hfull c hback with rfl | hblocked
      · exact Or.inr hwakes
      · exact Or.inl hblocked
  unfold run at hs
  rw [hpc] at hs
  dsimp only at hs
  split at hs
  · cases hs
    exact hwrites _ _ _ rfl rfl rfl rfl fun c hc => nomatch hc
  · rename_i hleft
    split at hs
    · rename_i hgives
      cases hs
      refine h.locked (Moves.update rfl) (setPc_pc _ i (.returned (-1))) ((setPc_sleeping _ i _).trans hsleep) (h.alone hholds) rfl
        (h.ptable_same hdozes rfl) ?_ fun j _ c hwaits _ hback => Or.inl ?_
      · rintro c (hc | hc) <;> cases hc
      · rcases hfull c hback with rfl | hblocked
        · -- A reader waits, so that nothing may have been stored.
          by_cases hf : s.pipe.Full
          · show (s.pipe.fill rest).1.Blocked _
            rw [fill_of_full hf]
            exact hback.resolve_right (by rw [hpc]; exact fun he => nomatch he)
          · have hlong := (fill_left_iff hb rest).mp hleft
            rw [Pipe.length_contents] at hlong
            rw [(fill_open rest s.pipe).1] at hgives
            exact absurd hwaits (htells ⟨rest, n, hpc, hgives, hf, hlong⟩ j)
        · exact hblocked
    · rename_i hstays
      cases hs
      refine hwrites _ _ _ rfl rfl rfl rfl fun c hc => ?_
      obtain rfl : .nwrite = c := Option.some.inj hc
      obtain ⟨-, -, -, -, hfull'⟩ := fill_spec rest hb
      refine ⟨hfull' hleft, ?_⟩
      by_contra hclosed
      exact hstays (Or.inl (by simpa using hclosed))

theorem Inv.readLoop {n : Int} (hpc : (s.task i).pc = .readLoop n) (hsleep : (s.task i).sleeping = none)
    (hs : s.run i = .ok s') : Inv s' := by
  have hholds : (s.task i).pc.holds = true := by rw [hpc]; rfl
  have hdozes : (s.task i).pc.dozes = none := by rw [hpc]; rfl
  have hwakes : (s.task i).pc.wakes = none := by rw [hpc]; rfl
  have hlock := (h.lock i).mpr hholds
  unfold run at hs
  rw [hpc] at hs
  dsimp only at hs
  split at hs
  · rename_i hempty
    split at hs
    · cases hs
      refine h.same (Moves.update rfl) hwakes (setPc_pc _ i (.returned (-1))) ((setPc_sleeping _ i _).trans hsleep) rfl (h.alone hholds) rfl
        (h.ptable_same hdozes rfl) ?_
      rintro c (hc | hc) <;> cases hc
    · cases hs
      refine h.same (Moves.update rfl) hwakes (setPc_pc _ i (.readSleep n)) ((setPc_sleeping _ i _).trans hsleep) rfl (h.alone hholds) hlock
        (h.ptable_same hdozes rfl) ?_
      rintro c (hc | hc) <;> cases hc
      exact hempty
  · rename_i hsome
    cases hs
    refine h.locked (Moves.update rfl) (setPc_pc _ i (.readWakeup _)) ((setPc_sleeping _ i _).trans hsleep) (h.alone hholds) hlock
      (h.ptable_same hdozes rfl) ?_ fun j _ c _ _ hback => ?_
    · rintro c (hc | hc) <;> cases hc
    · cases c with
      | nread =>
        rw [hwakes] at hback
        exact absurd (hback.resolve_right fun he => nomatch he) hsome
      | nwrite => exact Or.inr rfl

theorem Inv.closeAcquire {writable : Bool} (hpc : (s.task i).pc = .closeAcquire writable) (hsleep : (s.task i).sleeping = none)
    (hs : s.run i = .ok s') : Inv s' := by
  have hdozes : (s.task i).pc.dozes = none := by rw [hpc]; rfl
  unfold run at hs
  rw [hpc] at hs
  dsimp only at hs
  obtain ⟨s₁, hacquire, hs⟩ := bind_eq_ok.mp hs
  obtain ⟨hlock, rfl⟩ := acquire_eq hacquire
  cases hs
  refine h.locked (Moves.update rfl) (setPc_pc _ i (.closeWakeup writable)) ((setPc_sleeping _ i _).trans hsleep)
    (fun j _ => h.not_holds hlock j) rfl (h.ptable_same hdozes rfl) ?_ fun j _ c _ _ hback => ?_
  · rintro c (hc | hc) <;> cases hc
  · have hblocked := hback.resolve_right (by rw [hpc]; exact fun he => nomatch he)
    cases writable with
    | false =>
      cases c with
      | nread => exact Or.inl hblocked
      | nwrite => exact Or.inr rfl
    | true =>
      cases c with
      | nread => exact Or.inr rfl
      | nwrite => exact Or.inl hblocked

theorem Inv.run (hb : s.pipe.Bounded) (hsleep : (s.task i).sleeping = none)
    (htells : GivesUp s i → ∀ j, ¬(s.task j).Waits .nread) (hs : s.run i = .ok s') : Inv s' := by
  have hrun := hs
  unfold PipeSys.run at hs
  split at hs
  · cases hs
  · rename_i n hpc
    exact h.acquire (by rw [hpc]; rfl) (by rw [hpc]; rfl) hsleep rfl rfl rfl hs
  · rename_i n hpc
    exact h.readLoop hpc hsleep hrun
  · rename_i n hpc
    exact h.doze (c := .nread) (by rw [hpc]; rfl) (by rw [hpc]; rfl) hsleep rfl rfl rfl hs
  · rename_i n hpc
    cases hs
    exact h.sleep (by rw [hpc]; rfl) (by rw [hpc]; rfl) rfl rfl rfl
  · rename_i r hpc
    obtain ⟨s₁, hwake, hs⟩ := bind_eq_ok.mp hs
    cases hs
    exact h.wakeup (by rw [hpc]; rfl) hsleep hwake rfl rfl rfl rfl rfl fun c hc => nomatch hc
  · rename_i rest n hpc
    exact h.acquire (by rw [hpc]; rfl) (by rw [hpc]; rfl) hsleep rfl rfl rfl hs
  · rename_i rest n hpc
    exact h.writeLoop hb hpc hsleep htells hrun
  · rename_i rest n hpc
    obtain ⟨s₁, hwake, hs⟩ := bind_eq_ok.mp hs
    cases hs
    exact h.wakeup (by rw [hpc]; rfl) hsleep hwake rfl rfl rfl rfl rfl fun c hc => by rw [hpc]; exact hc
  · rename_i rest n hpc
    exact h.doze (c := .nwrite) (by rw [hpc]; rfl) (by rw [hpc]; rfl) hsleep rfl rfl rfl hs
  · rename_i rest n hpc
    cases hs
    exact h.sleep (by rw [hpc]; rfl) (by rw [hpc]; rfl) rfl rfl rfl
  · rename_i n hpc
    obtain ⟨s₁, hwake, hs⟩ := bind_eq_ok.mp hs
    cases hs
    exact h.wakeup (by rw [hpc]; rfl) hsleep hwake rfl rfl rfl rfl rfl fun c hc => nomatch hc
  · rename_i writable hpc
    exact h.closeAcquire hpc hsleep hrun
  · rename_i writable hpc
    obtain ⟨s₁, hwake, hs⟩ := bind_eq_ok.mp hs
    cases hs
    exact h.wakeup (by rw [hpc]; rfl) hsleep hwake rfl rfl rfl rfl rfl fun c hc => nomatch hc

theorem Inv.step (hb : s.pipe.Bounded) (htells : Tells s a) (hs : s.step a = .ok s') : Inv s' := by
  unfold PipeSys.step at hs
  cases a with
  | call i c =>
    dsimp only at hs
    split at hs <;> cases hs
    rename_i r hpc
    have hasleep : (s.task i).sleeping = none := by
      by_contra hne
      obtain ⟨c, hc⟩ := Option.ne_none_iff_exists'.mp hne
      have := h.asleep i c hc
      rw [hpc] at this
      cases this
    refine h.unlocked (Moves.update rfl) rfl rfl (by rw [hpc]; rfl) ?_ ?_ ?_ ?_
    · rw [setPc_pc]
      cases c <;> rfl
    · intro j
      refine ⟨fun hj => ⟨?_, hj⟩, fun hj => hj.2⟩
      rintro rfl
      exact (h.ptable j).mp hj (by rw [hpc]; rfl)
    · rw [setPc_pc]
      cases c <;> rfl
    · intro c' hc
      rw [setPc_sleeping, hasleep] at hc
      cases hc
  | run i =>
    dsimp only at hs
    split at hs
    · rename_i hsleep
      exact h.run hb hsleep htells hs
    · cases hs
  | kill i =>
    dsimp only at hs
    split at hs <;> cases hs
    have hpc : ∀ j, ((s.setTask i { s.task i with killed := true, sleeping := none }).task j).pc = (s.task j).pc := by
      intro j
      by_cases hj : j = i
      · subst hj
        simp [setTask]
      · simp [setTask, update_of_ne hj]
    have hsleeping : ∀ j c, ((s.setTask i { s.task i with killed := true, sleeping := none }).task j).sleeping = some c →
        (s.task j).sleeping = some c := by
      intro j c hc
      by_cases hj : j = i
      · subst hj
        simp [setTask] at hc
      · simpa [setTask, update_of_ne hj] using hc
    refine ⟨fun j => (hpc j).symm ▸ h.lock j, fun j => (hpc j).symm ▸ h.ptable j, fun j c hc => (hpc j).symm ▸ h.asleep j c (hsleeping j c hc),
      fun j c hc => h.tested j c (hpc j ▸ hc), fun j c hc => ?_⟩
    refine (h.waits j c (hc.imp (hsleeping j c) fun hd => hpc j ▸ hd)).imp_right fun ⟨k, hk⟩ => ⟨k, (hpc k).symm ▸ hk⟩

end

theorem reachable_inv (hs : Reachable PipeSys.step Tells (fun s => ∃ data, s = fresh data) s) : Queue s ∧ Inv s :=
  hs.invariant (P := fun s => Queue s ∧ Inv s) (fun _ ⟨data, h⟩ => h ▸ ⟨.fresh data, .fresh data⟩)
    fun _ _ _ ⟨hq, h⟩ htells hs => ⟨hq.step hs, h.step hq.bounded htells hs⟩

theorem GivesUp.run (hq : Queue s) (h : GivesUp s i) : ∃ s', s.run i = .ok s' ∧ s'.pipe.Full ∧ s'.lock = none ∧
    ∀ j, j ≠ i → s'.task j = s.task j := by
  obtain ⟨rest, n, hpc, hgives, hroom, hlong⟩ := h
  have hleft : (s.pipe.fill rest).2 ≠ [] := (fill_left_iff hq.bounded rest).mpr (by rw [Pipe.length_contents]; exact hlong)
  obtain ⟨-, -, -, -, hfull⟩ := fill_spec rest hq.bounded
  have hrun : s.run i = .ok ({ s with
      pipe := (s.pipe.fill rest).1
      stored := s.stored ++ rest.take (rest.length - (s.pipe.fill rest).2.length) }.release i (-1)) := by
    unfold PipeSys.run
    rw [hpc]
    dsimp only
    rw [if_neg hleft, (fill_open rest s.pipe).1, if_pos hgives]
  exact ⟨_, hrun, hfull hleft, rfl, fun j hj => update_of_ne hj ..⟩

/-- No wakeup is lost as long as no writer gives up with bytes that no reader was told of while a reader waits. When one
    does, that reader sleeps although the pipe is full, at once or when it has gone to sleep. -/
theorem no_lost_wakeup (hs : Reachable PipeSys.step Tells (fun s => ∃ data, s = fresh data) s) :
    Awake s ∧ ∀ i s', s.step (.run i) = .ok s' → ¬Tells s (.run i) →
      ¬Awake s' ∨ ∃ j t, s'.step (.run j) = .ok t ∧ ¬Awake t := by
  obtain ⟨hq, h⟩ := reachable_inv hs
  refine ⟨h.awake, fun i s' hstep htells => ?_⟩
  unfold Tells at htells
  push Not at htells
  obtain ⟨hgives, j, hj⟩ := htells
  obtain ⟨s₁, hrun, hfull, hlock, hother⟩ := hgives.run hq
  unfold PipeSys.step at hstep
  dsimp only at hstep
  split at hstep
  · rename_i hawake
    obtain rfl : s₁ = s' := Outcome.ok.inj (hrun.symm.trans hstep)
    obtain ⟨rest, n, hpc, -⟩ := hgives
    have hji : j ≠ i := by
      rintro rfl
      rcases hj with hj | hj
      · rw [hawake] at hj
        cases hj
      · rw [hpc] at hj
        cases hj
    have hne : ¬s₁.pipe.Empty := by
      intro hempty
      have hlen := full_iff.mp hfull
      rw [empty_iff.mp hempty] at hlen
      cases hlen
    rcases hj with hj | hj
    · exact Or.inl fun hw => hne ((hw hlock j).1 (by rw [hother j hji, hj])).1
    · -- The reader is about to sleep; it cannot be woken up any more.
      refine Or.inr ?_
      have hdoze : ∃ m, (s₁.task j).pc = .readDoze m := by
        rw [hother j hji]
        cases hpcj : (s.task j).pc <;> rw [hpcj] at hj <;> cases hj
        exact ⟨_, rfl⟩
      obtain ⟨m, hm⟩ := hdoze
      have hnot : (s₁.task j).sleeping = none := by
        rw [hother j hji] at hm ⊢
        by_contra hne
        obtain ⟨c, hc⟩ := Option.ne_none_iff_exists'.mp hne
        have := h.asleep j c hc
        rw [hm] at this
        cases this
      refine ⟨j, s₁.sleep j .nread (.readAcquire m), ?_, fun hw => ?_⟩
      · unfold PipeSys.step
        dsimp only
        rw [if_pos hnot]
        unfold PipeSys.run
        rw [hm]
      · exact hne ((hw hlock j).1 (by simp [PipeSys.sleep, setTask])).1
  · cases hstep

/-- Nobody is killed and the read end stays open. -/
def undisturbed (s : PipeSys ι) : Act ι → Bool
  | .run i => !(s.task i).killed && s.pipe.readopen
  | _ => true

omit [DecidableEq ι] in
theorem tells_of_undisturbed (h : undisturbed s a = true) : Tells s a := by
  cases a with
  | run i =>
    rintro ⟨rest, n, -, hgives, -⟩
    simp only [undisturbed, Bool.and_eq_true, Bool.not_eq_true'] at h
    rw [h.1, h.2] at hgives
    rcases hgives with hgives | hgives <;> cases hgives
  | call i c => trivial
  | kill i => trivial

/-- A reader waits for bytes. -/
theorem no_lost_wakeup_reader : ∃ s : PipeSys (Fin 2), (s.task 0).sleeping = some .nread ∧ s.pipe.Empty := by
  obtain ⟨s, hs, hsleep, hlock⟩ : ∃ s, runList (fun s a => if undisturbed s a then step s a else .sleep)
      (fresh fun _ => 0 : PipeSys (Fin 2)) [.call 0 (.piperead 2), .run 0, .run 0, .run 0, .run 0] = .ok s ∧
      (s.task 0).sleeping = some .nread ∧ s.lock = none := by
    decide +kernel
  have hreach : Reachable step Tells (fun s => ∃ data, s = fresh data) s :=
    .runGuarded (fun _ _ => tells_of_undisturbed) (.init ⟨_, rfl⟩) hs
  exact ⟨s, hsleep, (((no_lost_wakeup hreach).1 hlock 0).1 hsleep).1⟩

/-- A reader waits; a writer that was killed fills the pipe and gives up. -/
theorem killed_writer_loses_wakeup : ∃ s : PipeSys (Fin 2),
    Reachable step (fun _ _ => True) (fun s => ∃ data, s = fresh data) s ∧ s.lock = none ∧ (s.task 0).sleeping = some .nread ∧
      s.pipe.Full ∧ ¬Awake s := by
  obtain ⟨s, hs, hlock, hsleep, hfull, hne⟩ : ∃ s, runList step (fresh fun _ => 0 : PipeSys (Fin 2))
      [.call 0 (.piperead 1), .run 0, .run 0, .run 0, .run 0, .call 1 (.pipewrite (fun _ => 120) 513), .kill 1, .run 1, .run 1] = .ok s ∧
      s.lock = none ∧ (s.task 0).sleeping = some .nread ∧ s.pipe.Full ∧ ¬s.pipe.Empty := by
    decide +kernel
  exact ⟨s, .runList (fun _ _ => trivial) (.init ⟨_, rfl⟩) hs, hlock, hsleep, hfull, fun hw => hne ((hw hlock 0).1 hsleep).1⟩

end PipeSys
end Xv6
