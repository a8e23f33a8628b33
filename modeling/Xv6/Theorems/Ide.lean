import Xv6.Ide

/-! The queued driver does what the in-memory disk does, for the same buffers in the order of the queue. -/

namespace Xv6
open Function (update update_of_ne update_self)
open Outcome (bind_eq_ok ensures_iff ok_bind)
open Machine

/-! ### The registers -/

namespace Device

def addressed (d : Device) (n dev : Nat) : Device := { d with
  count := 1, lba0 := n &&& 0xff, lba1 := (n >>> 8) &&& 0xff, lba2 := (n >>> 16) &&& 0xff
  head := 0xe0 ||| ((dev &&& 1) <<< 4) ||| ((n >>> 24) &&& 0x0f) }

theorem addressed_spec {n : Nat} (hn : n < FSSIZE) (dev : Nat) (d : Device) :
    (d.addressed n dev).sector = n ∧ (d.addressed n dev).drive1 = dev.testBit 0 := by
  have hn : n < 1000 := hn
  have h0 : n &&& 0xff = n % 2 ^ 8 := Nat.and_two_pow_sub_one_eq_mod n 8
  have h1 : (n >>> 8) &&& 0xff = n / 2 ^ 8 % 2 ^ 8 := by
    rw [Nat.shiftRight_eq_div_pow]
    exact Nat.and_two_pow_sub_one_eq_mod _ 8
  have h2 : n >>> 16 = 0 := by
    rw [Nat.shiftRight_eq_div_pow]
    omega
  have h3 : n >>> 24 = 0 := by
    rw [Nat.shiftRight_eq_div_pow]
    omega
  have hdev : dev &&& 1 = dev % 2 := Nat.and_one_is_mod dev
  simp only [addressed, sector, drive1, h0, h1, h2, h3, hdev, Nat.zero_and, Nat.or_zero, Nat.testBit_zero]
  rcases Nat.mod_two_eq_zero_or_one dev with h | h <;> rw [h] <;> refine ⟨?_, by decide⟩ <;> simp <;> omega

end Device

/-- The command for a buffer. -/
def Buf.request (b : Buf) : Command := { write := b.dirty, drive1 := b.dev.testBit 0, sector := b.blockno, count := 1 }

/-- What a request does to the drives. -/
def Buf.written (b : Buf) (drive : Bool → Nat → Block) : Bool → Nat → Block :=
  if b.dirty then
    update drive (b.dev.testBit 0) (update (drive (b.dev.testBit 0)) b.blockno b.data)
  else drive

def Buf.synced (b : Buf) (drive : Bool → Nat → Block) : Buf :=
  { b with data := if b.dirty then b.data else drive (b.dev.testBit 0) b.blockno, valid := true, dirty := false }

namespace Ide
variable {Pid : Type} {s t : Ide Pid} {q : List BufIdx} {drive : Bool → Nat → Block} {i j : BufIdx} {p : Pid}

theorem idestart_spec (hidle : s.device.active = none) :
    (s.idestart i).Spec (fun t => ∃ d, t = { s with device := d } ∧ (s.buf i).blockno < FSSIZE ∧
      d.active = some (s.buf i).request ∧ d.intr = s.device.intr ∧ d.drive = s.device.drive ∧
      ((s.buf i).dirty = true → d.data = (s.buf i).data)) fun o => o = some "incorrect blockno" ∧ FSSIZE ≤ (s.buf i).blockno := by
  have hone : BSIZE / SECTOR_SIZE = 1 := rfl
  unfold idestart
  simp only [hone, Nat.mul_one]
  split
  · rename_i hbad
    exact ⟨rfl, hbad⟩
  · rename_i hn
    have hn := not_le.mp hn
    obtain ⟨hsector, hdrive⟩ := Device.addressed_spec hn (s.buf i).dev s.device
    have hcommand : ∀ write : Bool, (s.buf i).dirty = write →
        some { write := write, drive1 := (s.device.addressed (s.buf i).blockno (s.buf i).dev).drive1
               sector := (s.device.addressed (s.buf i).blockno (s.buf i).dev).sector, count := 1 } = some (s.buf i).request := by
      rintro _ rfl
      rw [hsector, hdrive, Buf.request]
    rw [if_neg (by decide), if_neg (by rw [Device.ready, hidle]; decide)]
    split
    · rename_i hdirty
      exact ⟨_, rfl, hn, hcommand true hdirty, rfl, rfl, fun _ => rfl⟩
    · rename_i hdirty
      exact ⟨_, rfl, hn, hcommand false (Bool.eq_false_iff.mpr hdirty), rfl, rfl, fun h => absurd h hdirty⟩

/-! ### The invariant -/

/-- The device works on the request of the buffer, or it has ended it and its interrupt is still to be handled. The drives
    are as the requests before left them. -/
inductive Serves (d : Device) (drive : Bool → Nat → Block) (b : Buf) : Prop
  | working (active : d.active = some b.request) (intr : d.intr = false) (drives : d.drive = drive)
      (data : b.dirty = true → d.data = b.data)
  | done (active : d.active = none) (intr : d.intr = true) (drives : d.drive = b.written drive)
      (data : b.dirty = false → d.data = drive (b.dev.testBit 0) b.blockno)

/-- The device is idle if nothing is queued, and serves the head of the queue otherwise. -/
def ServesHead (s : Ide Pid) (drive : Bool → Nat → Block) : List BufIdx → Prop
  | [] => s.device.active = none ∧ s.device.intr = false ∧ s.device.drive = drive
  | i :: _ => Serves s.device drive (s.buf i) ∧ (s.buf i).blockno < FSSIZE

/-- The process is in `iderw` with the buffer. -/
def Waits (s : Ide Pid) (p : Pid) (i : BufIdx) : Prop := s.pc p = .sleeping i ∨ s.pc p = .woken i

/-- The queue is `q`, and the requests that have ended left the drives as they are in `drive`. -/
structure Inv (s : Ide Pid) (q : List BufIdx) (drive : Bool → Nat → Block) : Prop where
  spells : s.idequeue.Spells q
  nodup : q.Nodup
  order : s.queued = s.completed ++ q
  serves : s.ServesHead drive q
  owned : ∀ p i, s.Waits p i → s.owner i = some p
  waits : ∀ i ∈ q, ∃ p, s.Waits p i
  asks : ∀ i ∈ q, (s.buf i).busy = true ∧ ¬((s.buf i).valid = true ∧ (s.buf i).dirty = false)
  asleep : ∀ p i, s.pc p = .sleeping i → i ∈ q
  awake : ∀ p i, s.pc p = .woken i → i ∈ q ∨ (s.buf i).valid = true ∧ (s.buf i).dirty = false

theorem ServesHead.congr (h : s.ServesHead drive q) (hd : t.device = s.device) (hb : ∀ i ∈ q, t.buf i = s.buf i) :
    t.ServesHead drive q := by
  cases q with
  | nil =>
    rw [ServesHead, hd]
    exact h
  | cons i q =>
    rw [ServesHead, hd, hb i List.mem_cons_self]
    exact h

theorem Inv.free (h : Inv s q drive) (hi : ∀ p, s.owner i = some p → s.pc p = .out) :
    i ∉ q ∧ ∀ p, ¬s.Waits p i := by
  have hnone : ∀ p, ¬s.Waits p i := fun p hw => by
    have hout := hi p (h.owned p i hw)
    rcases hw with hw | hw <;> rw [hout] at hw <;> cases hw
  refine ⟨fun hmem => ?_, hnone⟩
  obtain ⟨p, hp⟩ := h.waits i hmem
  exact hnone p hp

theorem Inv.setBuf (h : Inv s q drive) (hi : i ∉ q) (hw : ∀ p, ¬s.Waits p i) (b : Buf) (owner : Option Pid) :
    Inv { s.setBuf i b with owner := update s.owner i owner } q drive := by
  have hbuf : ∀ j, j ≠ i → update s.buf i b j = s.buf j := fun j hj => update_of_ne hj _ _
  have hq : ∀ j ∈ q, j ≠ i := fun j hj heq => hi (heq ▸ hj)
  refine ⟨h.spells, h.nodup, h.order, h.serves.congr rfl fun j hj => hbuf j (hq j hj), fun p j hp => ?_, h.waits,
    fun j hj => ?_, h.asleep, fun p j hp => ?_⟩
  · have hj : j ≠ i := by
      rintro rfl
      exact hw p hp
    exact (update_of_ne hj _ _).trans (h.owned p j hp)
  · dsimp only [Ide.setBuf]
    rw [hbuf j (hq j hj)]
    exact h.asks j hj
  · have hj : j ≠ i := by
      rintro rfl
      exact hw p (Or.inr hp)
    dsimp only [Ide.setBuf]
    rw [hbuf j hj]
    exact h.awake p j hp

/-- What a step does to the queue, the buffers, the drives and the trace: only `iderw` puts a buffer in the queue, a buffer
    is changed that is not there, or a request ends. -/
inductive Moves (s : Ide Pid) (a : Act Pid) (t : Ide Pid) (q q' : List BufIdx) (drive drive' : Bool → Nat → Block) : Prop
  | quiet (queue : ∀ i ∈ q', i ∈ q ∨ ∃ p, a = .iderw p i) (buf : t.buf = s.buf) (trace : t.trace = s.trace)
      (drives : drive' = drive) (completed : t.completed = s.completed)
  | set (i : BufIdx) (b : Buf) (queue : q' = q) (free : i ∉ q) (buf : t.buf = update s.buf i b)
      (trace : t.trace = s.trace ++ [.set i b]) (drives : drive' = drive) (completed : t.completed = s.completed)
  | ends (i : BufIdx) (queue : q = i :: q') (buf : t.buf = update s.buf i ((s.buf i).synced drive))
      (trace : t.trace = s.trace ++ [.iderw i]) (drives : drive' = (s.buf i).written drive)
      (completed : t.completed = s.completed ++ [i])

/-! ### Steps -/

theorem startHead_spec (drive : Bool → Nat → Block) (hq : s.idequeue.Spells q) (hidle : s.device.active = none) (hintr : s.device.intr = false)
    (hdrive : s.device.drive = drive) :
    s.startHead.Spec (fun t => ∃ d, t = { s with device := d } ∧ t.ServesHead drive q) fun o =>
      o = some "incorrect blockno" ∧ ∃ i ∈ q, FSSIZE ≤ (s.buf i).blockno := by
  unfold startHead
  rw [hq.head]
  cases q with
  | nil => exact ⟨_, rfl, hidle, hintr, hdrive⟩
  | cons i q =>
    refine (idestart_spec (i := i) hidle).mono ?_ ?_
    · rintro t ⟨d, rfl, hn, hactive, hi, hd, hdata⟩
      exact ⟨d, rfl, .working hactive (hi.trans hintr) (hd.trans hdrive) hdata, hn⟩
    · rintro o ⟨rfl, hbad⟩
      exact ⟨rfl, i, List.mem_cons_self, hbad⟩

theorem Inv.complete (h : Inv s q drive) {d : Device} (hd : s.device.complete = .ok d) : Inv { s with device := d } q drive := by
  have hserves : ({ s with device := d } : Ide Pid).ServesHead drive q := by
    have hs := h.serves
    unfold Device.complete at hd
    cases q with
    | nil =>
      rw [hs.1] at hd
      cases hd
    | cons i q =>
      refine ⟨?_, hs.2⟩
      cases hs.1 with
      | done active _ _ _ =>
        rw [active] at hd
        cases hd
      | working active intr hdrive data =>
        rw [active] at hd
        dsimp only at hd
        rw [if_neg (by simp [Buf.request])] at hd
        split at hd
        · rename_i hw
          have hdirty : (s.buf i).dirty = true := hw
          cases hd
          refine .done rfl rfl ?_ fun h => ?_
          · rw [Buf.written, if_pos hdirty, hdrive, data hdirty]
            rfl
          · rw [hdirty] at h
            cases h
        · rename_i hw
          have hdirty : ¬(s.buf i).dirty = true := hw
          cases hd
          refine .done rfl rfl ?_ fun _ => ?_
          · rw [Buf.written, if_neg hdirty]
            exact hdrive
          · rw [hdrive]
            rfl
  exact ⟨h.spells, h.nodup, h.order, hserves, h.owned, h.waits, h.asks, h.asleep, h.awake⟩

theorem waits_wakeup : (s.wakeup i).Waits p j ↔ s.Waits p j := by
  unfold Waits wakeup
  dsimp only
  split
  · rename_i hp
    rw [hp]
    simp only [Pc.sleeping.injEq, reduceCtorEq, Pc.woken.injEq, false_or, or_false]
  · exact Iff.rfl

theorem Inv.ideintr (h : Inv s q drive) (hintr : s.device.intr = true) :
    ({ s with device := { s.device with intr := false } } : Ide Pid).ideintr.Spec
      (fun t => ∃ i q', q = i :: q' ∧ Inv t q' ((s.buf i).written drive) ∧
        t.buf = update s.buf i ((s.buf i).synced drive) ∧ t.trace = s.trace ++ [.iderw i] ∧
        t.completed = s.completed ++ [i] ∧ ∀ p j, s.Waits p j → t.Waits p j)
      fun o => o = some "incorrect blockno" ∧ ∃ i ∈ q, FSSIZE ≤ (s.buf i).blockno := by
  cases q with
  | nil =>
    have hno := h.serves.2.1
    rw [hintr] at hno
    cases hno
  | cons i q =>
    obtain ⟨hhead, hspells⟩ := h.spells.pop
    obtain ⟨hi, hnodup⟩ := List.nodup_cons.mp h.nodup
    obtain ⟨hserves, hn⟩ := h.serves
    cases hserves with
    | working _ intr _ _ =>
      rw [hintr] at intr
      cases intr
    | done active _ hdrive data =>
      unfold Ide.ideintr
      dsimp only
      rw [hhead]
      dsimp only
      rw [if_neg (by rw [Device.ready, active]; simp)]
      have hsynced : ({ (if (s.buf i).dirty = false then { s.buf i with data := s.device.data } else s.buf i) with
          valid := true, dirty := false } : Buf) = (s.buf i).synced drive := by
        unfold Buf.synced
        split
        · rename_i hdirty
          rw [data hdirty, hdirty]
          rfl
        · rename_i hdirty
          rw [if_pos (by simpa using hdirty)]
      rw [hsynced]
      have hbuf : ∀ j, j ≠ i → update s.buf i ((s.buf i).synced drive) j = s.buf j := fun j hj =>
        update_of_ne hj _ _
      have hne : ∀ j ∈ q, j ≠ i := fun j hj heq => hi (heq ▸ hj)
      refine Outcome.Spec.mono (startHead_spec (q := q) ((s.buf i).written drive) ?_ ?_ ?_ ?_) ?_ ?_
      · exact hspells
      · exact active
      · rfl
      · exact hdrive
      · rintro _ ⟨d, rfl, hserves⟩
        refine ⟨i, q, rfl, ⟨hspells, hnodup, ?_, hserves, fun p j hp => h.owned p j (waits_wakeup.mp hp), fun j hj => ?_,
          fun j hj => ?_, fun p j hp => ?_, fun p j hp => ?_⟩, rfl, rfl, rfl, fun p j hp => waits_wakeup.mpr hp⟩
        · change s.queued = s.completed ++ [i] ++ q
          rw [h.order, List.append_assoc]
          rfl
        · obtain ⟨p, hp⟩ := h.waits j (List.mem_cons_of_mem i hj)
          exact ⟨p, waits_wakeup.mpr hp⟩
        · dsimp only [wakeup]
          rw [hbuf j (hne j hj)]
          exact h.asks j (List.mem_cons_of_mem i hj)
        · dsimp only [wakeup] at hp
          split at hp
          · cases hp
          · rename_i hp'
            rcases List.mem_cons.mp (h.asleep p j hp) with rfl | hj
            · exact absurd hp hp'
            · exact hj
        · dsimp only [wakeup] at hp ⊢
          by_cases hj : j = i
          · subst hj
            rw [update_self]
            exact Or.inr ⟨rfl, rfl⟩
          · rw [hbuf j hj]
            split at hp
            · cases hp
              exact absurd rfl hj
            · rcases h.awake p j hp with hmem | hdone
              · exact Or.inl ((List.mem_cons.mp hmem).resolve_left hj)
              · exact Or.inr hdone
      · rintro o ⟨rfl, j, hj, hbad⟩
        refine ⟨rfl, j, List.mem_cons_of_mem i hj, ?_⟩
        dsimp only [wakeup] at hbad
        rw [hbuf j (hne j hj)] at hbad
        exact hbad

section
variable [DecidableEq Pid]

theorem pc_update {f : Pid → Pc} {pc x : Pc} {p' : Pid} (hx : update f p pc p' = x) :
    p' = p ∧ pc = x ∨ p' ≠ p ∧ f p' = x := by
  by_cases hpp : p' = p
  · rw [hpp, update_self] at hx
    exact Or.inl ⟨hpp, hx⟩
  · rw [update_of_ne hpp] at hx
    exact Or.inr ⟨hpp, hx⟩

theorem Inv.setPc (h : Inv s q drive) (pc : Pc) (hp : ∀ i, s.Waits p i → i ∈ q → pc = .sleeping i ∨ pc = .woken i)
    (hown : ∀ i, pc = .sleeping i ∨ pc = .woken i → s.owner i = some p) (hsleep : ∀ i, pc = .sleeping i → i ∈ q)
    (hwoken : ∀ i, pc = .woken i → i ∈ q ∨ (s.buf i).valid = true ∧ (s.buf i).dirty = false) :
    Inv { s with pc := update s.pc p pc } q drive := by
  refine ⟨h.spells, h.nodup, h.order, h.serves.congr rfl fun _ _ => rfl, fun p' i hw => ?_, fun i hi => ?_, h.asks,
    fun p' i hw => ?_, fun p' i hw => ?_⟩
  · rcases hw with hw | hw <;> rcases pc_update hw with ⟨rfl, hpc⟩ | ⟨-, hpc⟩
    · exact hown i (Or.inl hpc)
    · exact h.owned p' i (Or.inl hpc)
    · exact hown i (Or.inr hpc)
    · exact h.owned p' i (Or.inr hpc)
  · obtain ⟨p', hp'⟩ := h.waits i hi
    refine ⟨p', ?_⟩
    unfold Waits at hp' ⊢
    dsimp only
    by_cases hpp : p' = p
    · subst hpp
      rw [update_self]
      exact hp i hp' hi
    · rw [update_of_ne hpp]
      exact hp'
  · rcases pc_update hw with ⟨rfl, hpc⟩ | ⟨-, hpc⟩
    · exact hsleep i hpc
    · exact h.asleep p' i hpc
  · rcases pc_update hw with ⟨rfl, hpc⟩ | ⟨-, hpc⟩
    · exact hwoken i hpc
    · exact h.awake p' i hpc

theorem Inv.resume (h : Inv s q drive) (hp : s.pc p = .woken i) : Inv (s.await p i) q drive := by
  have hone : ∀ j, s.Waits p j → j = i := fun j hj => by
    rcases hj with hj | hj <;> rw [hp] at hj <;> cases hj
    rfl
  unfold await
  split
  · rename_i hdone
    refine h.setPc .out (fun j hj hmem => ?_) (fun j hj => ?_) (fun j hj => nomatch hj) fun j hj => nomatch hj
    · rw [hone j hj] at hmem
      exact absurd hdone (h.asks i hmem).2
    · rcases hj with hj | hj <;> cases hj
  · rename_i hmore
    have hmem := (h.awake p i hp).resolve_right hmore
    refine h.setPc (.sleeping i) (fun j hj _ => Or.inl (by rw [hone j hj])) (fun j hj => ?_) (fun j hj => ?_)
      fun j hj => nomatch hj
    · rcases hj with hj | hj <;> cases hj
      exact h.owned p i (Or.inr hp)
    · cases hj
      exact hmem

theorem Inv.kill (h : Inv s q drive) (hp : s.pc p = .sleeping i) :
    Inv { s with pc := update s.pc p (.woken i) } q drive := by
  refine h.setPc (.woken i) (fun j hj _ => ?_) (fun j hj => ?_) (fun j hj => nomatch hj) fun j hj => ?_
  · rcases hj with hj | hj <;> rw [hp] at hj <;> cases hj
    exact Or.inr rfl
  · rcases hj with hj | hj <;> cases hj
    exact h.owned p i (Or.inl hp)
  · cases hj
    exact Or.inl (h.asleep p i hp)

omit [DecidableEq Pid] in
theorem Inv.length_le (h : Inv s q drive) : q.length < NBUF + 1 := by
  have hcard := h.nodup.length_le_card
  rw [Fintype.card_fin] at hcard
  exact Nat.lt_succ_of_le hcard

theorem Inv.iderw (h : Inv s q drive) (hout : s.pc p = .out) (howner : s.owner i = some p) :
    (s.iderw p i).Ensures fun t => Inv t (q ++ [i]) drive ∧
      Moves s (.iderw p i) t q (q ++ [i]) drive drive ∧ t.pc p = .sleeping i := by
  obtain ⟨hi, hfree⟩ := h.free (i := i) fun p' hp' => by
    rw [howner] at hp'
    cases hp'
    exact hout
  unfold Ide.iderw
  dsimp only
  split
  · trivial
  split
  · trivial
  split
  · trivial
  rename_i hbusy hask hdisk
  have hbusy : (s.buf i).busy = true := by simpa using hbusy
  obtain ⟨queue, hqueue, hspells⟩ := h.spells.append h.nodup hi h.length_le
  rw [hqueue]
  dsimp only
  -- The device is started for the buffer iff nothing else was in the queue.
  have hstart : (({ s with idequeue := queue, queued := s.queued ++ [i] } : Ide Pid).startIfHead i).Ensures fun t =>
      ∃ d, t = { s with idequeue := queue, queued := s.queued ++ [i], device := d } ∧ t.ServesHead drive (q ++ [i]) := by
    unfold startIfHead
    dsimp only
    rw [hspells.head]
    cases q with
    | nil =>
      obtain ⟨hidle, hintr, hdrive⟩ := h.serves
      rw [List.nil_append, List.head?_cons, if_pos rfl]
      refine Outcome.Spec.mono (idestart_spec ?_) ?_ fun _ _ => trivial
      · exact hidle
      · rintro _ ⟨d, rfl, hn, hactive, hd, hdr, hdata⟩
        exact ⟨d, rfl, .working hactive (hd.trans hintr) (hdr.trans hdrive) hdata, hn⟩
    | cons j q =>
      have hne : (j :: q ++ [i]).head? ≠ some i := fun hj => hi (Option.some.inj hj ▸ List.mem_cons_self)
      rw [if_neg hne]
      exact ⟨_, rfl, h.serves⟩
  refine hstart.bind ?_
  rintro _ ⟨d, rfl, hserves⟩
  have hinv : Inv ({ s with
      idequeue := queue, queued := s.queued ++ [i], device := d, pc := update s.pc p (.sleeping i) } : Ide Pid)
      (q ++ [i]) drive := by
    refine ⟨hspells, ?_, ?_, hserves.congr rfl fun _ _ => rfl, fun p' j hw => ?_, fun j hj => ?_, fun j hj => ?_,
      fun p' j hw => ?_, fun p' j hw => ?_⟩
    · exact List.nodup_append.mpr ⟨h.nodup, List.nodup_singleton i, fun j hj k hk hjk => by
        rw [List.mem_singleton] at hk
        exact hi (hk ▸ hjk ▸ hj)⟩
    · change s.queued ++ [i] = s.completed ++ (q ++ [i])
      rw [h.order, List.append_assoc]
    · rcases hw with hw | hw <;> rcases pc_update hw with ⟨rfl, hx⟩ | ⟨-, hx⟩
      · cases hx
        exact howner
      · exact h.owned p' j (Or.inl hx)
      · cases hx
      · exact h.owned p' j (Or.inr hx)
    · rcases List.mem_append.mp hj with hj | hj
      · obtain ⟨p', hp'⟩ := h.waits j hj
        refine ⟨p', ?_⟩
        have hpp : p' ≠ p := by
          rintro rfl
          rcases hp' with hp' | hp' <;> rw [hout] at hp' <;> cases hp'
        unfold Waits at hp' ⊢
        dsimp only
        rw [update_of_ne hpp]
        exact hp'
      · rw [List.mem_singleton] at hj
        subst hj
        exact ⟨p, Or.inl (update_self ..)⟩
    · rcases List.mem_append.mp hj with hj | hj
      · exact h.asks j hj
      · rw [List.mem_singleton] at hj
        subst hj
        exact ⟨hbusy, hask⟩
    · rcases pc_update hw with ⟨rfl, hx⟩ | ⟨-, hx⟩
      · cases hx
        exact List.mem_append_right q (List.mem_singleton_self _)
      · exact List.mem_append_left _ (h.asleep p' j hx)
    · rcases pc_update hw with ⟨rfl, hx⟩ | ⟨-, hx⟩
      · cases hx
      · exact (h.awake p' j hx).imp (List.mem_append_left _) id
  change Inv (Ide.await _ p i) _ _ ∧ Moves s _ (Ide.await _ p i) _ _ _ _ ∧ (Ide.await _ p i).pc p = _
  rw [await, if_neg hask]
  refine ⟨hinv, .quiet (fun j hj => ?_) rfl rfl rfl rfl, update_self ..⟩
  rcases List.mem_append.mp hj with hj | hj
  · exact Or.inl hj
  · exact Or.inr ⟨p, by rw [List.mem_singleton.mp hj]⟩

theorem Inv.step {a : Act Pid} (h : Inv s q drive) (hs : s.step a = .ok t) :
    ∃ q' drive', Inv t q' drive' ∧ Moves s a t q q' drive drive' := by
  have hsame : ∀ i ∈ q, i ∈ q ∨ ∃ p, a = .iderw p i := fun i hi => Or.inl hi
  cases a with
  | bget p i b =>
    rw [Ide.step] at hs
    split at hs <;> cases hs
    rename_i hc
    obtain ⟨hi, hw⟩ := h.free (i := i) fun p' hp' => by
      rw [hc.2.1] at hp'
      cases hp'
    exact ⟨q, drive, h.setBuf hi hw b (some p), .set i b rfl hi rfl rfl rfl rfl⟩
  | modify p i b =>
    rw [Ide.step] at hs
    split at hs <;> cases hs
    rename_i hc
    obtain ⟨hi, hw⟩ := h.free (i := i) fun p' hp' => by
      rw [hc.2.1] at hp'
      cases hp'
      exact hc.1
    have hinv := h.setBuf hi hw b (some p)
    rw [show update s.owner i (some p) = s.owner from Function.update_eq_self_iff.mpr hc.2.1.symm] at hinv
    exact ⟨q, drive, hinv, .set i b rfl hi rfl rfl rfl rfl⟩
  | brelse p i =>
    rw [Ide.step] at hs
    split at hs <;> cases hs
    rename_i hc
    obtain ⟨hi, hw⟩ := h.free (i := i) fun p' hp' => by
      rw [hc.2] at hp'
      cases hp'
      exact hc.1
    exact ⟨q, drive, h.setBuf hi hw _ none, .set i _ rfl hi rfl rfl rfl rfl⟩
  | iderw p i =>
    rw [Ide.step] at hs
    split at hs
    · rename_i hc
      obtain ⟨hinv, hmoves, -⟩ := ensures_iff.mp (h.iderw hc.1 hc.2) t hs
      exact ⟨q ++ [i], drive, hinv, hmoves⟩
    · cases hs
  | complete =>
    obtain ⟨d, hd, hs⟩ := bind_eq_ok.mp hs
    cases hs
    exact ⟨q, drive, h.complete hd, .quiet hsame rfl rfl rfl rfl⟩
  | ideintr =>
    rw [Ide.step] at hs
    split at hs
    · rename_i hintr
      obtain ⟨i, q', hq, hinv, hbuf, htrace, hcompleted, -⟩ := (h.ideintr hintr).of_eq_ok hs
      exact ⟨q', _, hinv, .ends i hq hbuf htrace rfl hcompleted⟩
    · cases hs
  | kill p =>
    rw [Ide.step] at hs
    split at hs
    · rename_i i hp
      cases hs
      exact ⟨q, drive, h.kill hp, .quiet hsame rfl rfl rfl rfl⟩
    · cases hs
      exact ⟨q, drive, h, .quiet hsame rfl rfl rfl rfl⟩
  | resume p =>
    rw [Ide.step] at hs
    split at hs
    · rename_i i hp
      cases hs
      refine ⟨q, drive, h.resume hp, ?_⟩
      unfold await
      split <;> exact .quiet hsame rfl rfl rfl rfl
    · cases hs

omit [DecidableEq Pid] in
theorem Inv.start (buf : BufIdx → Buf) (drive : Bool → Nat → Block) (havedisk1 : Bool) :
    Inv (start buf drive havedisk1 : Ide Pid) [] drive where
  spells := rfl
  nodup := List.nodup_nil
  order := rfl
  serves := ⟨rfl, rfl, rfl⟩
  owned p i hw := by rcases hw with hw | hw <;> cases hw
  waits i hi := nomatch hi
  asks i hi := nomatch hi
  asleep p i hp := nomatch hp
  awake p i hp := nomatch hp

/-! ### Every request ends -/

theorem Inv.raises (h : Inv s (i :: q) drive) : ∃ as t, (∀ a ∈ as, a = Act.complete ∨ a = Act.ideintr) ∧
    runList Ide.step s as = .ok t ∧ t.device.intr = true ∧ Inv t (i :: q) drive ∧ t.buf = s.buf ∧ t.pc = s.pc := by
  cases h.serves.1 with
  | done _ intr _ _ => exact ⟨[], s, nofun, rfl, intr, h, rfl, rfl⟩
  | working active _ _ _ =>
    have hd : ∃ d, s.device.complete = .ok d ∧ d.intr = true := by
      unfold Device.complete
      rw [active]
      dsimp only
      rw [if_neg (by simp [Buf.request])]
      split <;> exact ⟨_, rfl, rfl⟩
    obtain ⟨d, hd, hintr⟩ := hd
    have hrun : runList Ide.step s [Act.complete] = .ok { s with device := d } := by
      simp only [runList, Ide.step, hd, ok_bind, Outcome.pure_eq]
    exact ⟨[.complete], _, fun a ha => Or.inl (List.mem_singleton.mp ha), hrun, hintr, h.complete hd, rfl, rfl⟩

theorem runList_append_ok {as bs : List (Act Pid)} {u : Ide Pid} (hs : runList step s as = .ok t)
    (ht : runList step t bs = .ok u) : runList step s (as ++ bs) = .ok u := by
  induction as generalizing s with
  | nil =>
    cases hs
    exact ht
  | cons a as ih =>
    obtain ⟨v, hv, hs⟩ := bind_eq_ok.mp hs
    exact bind_eq_ok.mpr ⟨v, hv, ih hs⟩

theorem Inv.drain (h : Inv s q drive) (hn : ∀ i ∈ q, (s.buf i).blockno < FSSIZE) :
    ∃ as t, (∀ a ∈ as, a = Act.complete ∨ a = Act.ideintr) ∧ runList Ide.step s as = .ok t ∧ (∃ drive', Inv t [] drive') ∧
      ∀ p i, s.Waits p i → t.Waits p i := by
  induction q generalizing s drive with
  | nil => exact ⟨[], s, nofun, rfl, ⟨drive, h⟩, fun _ _ hw => hw⟩
  | cons i q ih =>
    obtain ⟨as, t, has, hrun, hintr, hinv, hbuf, hpc⟩ := h.raises
    obtain ⟨u, hu, j, q', hq, hinv', hbuf', -, -, hwaits⟩ := (hinv.ideintr hintr).exists_ok (by
      rintro o ⟨-, j, hj, hbad⟩
      rw [hbuf] at hbad
      exact absurd (hn j hj) (not_lt.mpr hbad))
    obtain ⟨rfl, rfl⟩ := List.cons.inj hq
    have hstep : runList Ide.step t [Act.ideintr] = .ok u := by
      simp only [runList, Ide.step, hintr, ↓reduceIte, hu, ok_bind]
    have hn' : ∀ j ∈ q, (u.buf j).blockno < FSSIZE := fun j hj => by
      have hne : j ≠ i := by
        rintro rfl
        exact (List.nodup_cons.mp h.nodup).1 hj
      rw [hbuf', update_of_ne hne, hbuf]
      exact hn j (List.mem_cons_of_mem i hj)
    obtain ⟨bs, v, hbs, hrun', hempty, hkept⟩ := ih hinv' hn'
    refine ⟨as ++ ([.ideintr] ++ bs), v, ?_, runList_append_ok hrun (runList_append_ok hstep hrun'), hempty, fun p j hw => ?_⟩
    · intro a ha
      rcases List.mem_append.mp ha with ha | ha
      · exact has a ha
      · rcases List.mem_append.mp ha with ha | ha
        · exact Or.inr (List.mem_singleton.mp ha)
        · exact hbs a ha
    · refine hkept p j (hwaits p j ?_)
      unfold Waits at hw ⊢
      rw [hpc]
      exact hw

theorem Inv.returns (h : Inv s [] drive) (hw : s.Waits p i) : ∃ t, s.step (.resume p) = .ok t ∧ t.pc p = .out := by
  rcases hw with hw | hw
  · cases h.asleep p i hw
  · have hdone := (h.awake p i hw).resolve_left nofun
    have hawait : s.await p i = { s with pc := update s.pc p .out } := if_pos hdone
    refine ⟨_, by rw [Ide.step, hw], ?_⟩
    rw [hawait]
    exact update_self ..

/-! ### The in-memory disk -/

/-- The in-memory disk and its buffers. -/
def memory (buf : BufIdx → Buf) (disk : Nat → Block) : Store := { disk := disk, disksize := FSSIZE, buf := buf, lru := [] }

theorem iderw_eq (st : Store) (hbusy : (st.buf i).busy = true) (hask : ¬((st.buf i).valid = true ∧ (st.buf i).dirty = false))
    (hdev : (st.buf i).dev = ROOTDEV) (hn : (st.buf i).blockno < st.disksize) :
    st.iderw i = if (st.buf i).dirty then
      .ok { st.setBuf i { st.buf i with dirty := false, valid := true } with
        disk := update st.disk (st.buf i).blockno (st.buf i).data }
      else .ok (st.setBuf i { st.buf i with data := st.disk (st.buf i).blockno, valid := true }) := by
  unfold Store.iderw
  dsimp only
  rw [if_neg (by rw [hbusy]; decide), if_neg hask, if_neg (not_not.mpr hdev), if_neg (not_le.mpr hn)]

omit [DecidableEq Pid] in
/-- A request that ends does what `iderw` of the in-memory disk does. -/
theorem memStep_ends (h : Inv s (i :: q) drive) (hdev : (s.buf i).dev = ROOTDEV) :
    (memory s.buf (drive true)).memStep (.iderw i) =
      .ok (memory (update s.buf i ((s.buf i).synced drive)) ((s.buf i).written drive true)) := by
  obtain ⟨hbusy, hask⟩ := h.asks i List.mem_cons_self
  have hbit : (s.buf i).dev.testBit 0 = true := by rw [hdev]; rfl
  refine (iderw_eq (memory s.buf (drive true)) hbusy hask hdev h.serves.2).trans ?_
  by_cases hdirty : (s.buf i).dirty = true
  · rw [if_pos (show ((memory s.buf (drive true)).buf i).dirty = true from hdirty)]
    simp only [Buf.written, Buf.synced, hdirty, hbit, ↓reduceIte, update_self]
    rfl
  · rw [if_neg (show ¬((memory s.buf (drive true)).buf i).dirty = true from hdirty)]
    have hclean := Bool.eq_false_iff.mpr hdirty
    simp only [Buf.written, Buf.synced, hclean, hbit, Bool.false_eq_true, ↓reduceIte]
    rw [← hclean]
    rfl

/-- The requests that have ended, of a trace. -/
def MemAct.ended : MemAct → Option BufIdx
  | .set _ _ => none
  | .iderw i => some i

/-- The run of the in-memory disk along the trace has led to the buffers and to drive 1. -/
structure Follows (s : Ide Pid) (q : List BufIdx) (drive : Bool → Nat → Block) (st₀ : Store) : Prop extends Inv s q drive where
  run : runList Store.memStep st₀ s.trace = .ok (memory s.buf (drive true))
  dev : ∀ i ∈ q, (s.buf i).dev = ROOTDEV
  ended : s.trace.filterMap MemAct.ended = s.completed

theorem Follows.step {st₀ : Store} {a : Act Pid} (h : Follows s q drive st₀)
    (hg : ∀ p i, a = .iderw p i → (s.buf i).dev = ROOTDEV) (hs : s.step a = .ok t) :
    ∃ q' drive', Follows t q' drive' st₀ := by
  obtain ⟨q', drive', hinv, hmoves⟩ := h.toInv.step hs
  refine ⟨q', drive', ?_⟩
  cases hmoves with
  | quiet queue buf trace drives completed =>
    refine ⟨hinv, ?_, fun i hi => ?_, ?_⟩
    · rw [trace, buf, drives]
      exact h.run
    · rw [buf]
      rcases queue i hi with hi | ⟨p, rfl⟩
      · exact h.dev i hi
      · exact hg p i rfl
    · rw [trace, completed]
      exact h.ended
  | set j b queue free buf trace drives completed =>
    refine ⟨hinv, ?_, fun i hi => ?_, ?_⟩
    · rw [trace, runList_append, h.run, buf, drives]
      rfl
    · rw [queue] at hi
      have hne : i ≠ j := by
        rintro rfl
        exact free hi
      rw [buf, update_of_ne hne]
      exact h.dev i hi
    · rw [trace, List.filterMap_append, h.ended, completed]
      exact List.append_nil _
  | ends j queue buf trace drives completed =>
    subst queue
    refine ⟨hinv, ?_, fun i hi => ?_, ?_⟩
    · rw [trace, runList_append, h.run, buf, drives]
      exact memStep_ends h.toInv (h.dev j List.mem_cons_self)
    · have hne : i ≠ j := by
        rintro rfl
        exact (List.nodup_cons.mp h.nodup).1 hi
      rw [buf, update_of_ne hne]
      exact h.dev i (List.mem_cons_of_mem j hi)
    · rw [trace, List.filterMap_append, h.ended, completed]
      rfl

/-- For any processes and any interleaving with the interrupts of the device: no buffer is twice in the queue, requests
    end in the order in which they were queued, what the device works on is the request of the head, `iderw` returns with a
    buffer that is valid and not dirty, and all callers in it return when the device has ended the queued requests. If all
    are for disk 1, the buffers and the disk are those that `iderw` of `memide.c` leaves, called for the same buffers in
    the order of the queue at the times when their requests end. -/
theorem ide_refines_memide (buf : BufIdx → Buf) (drive : Bool → Nat → Block) (havedisk1 : Bool) :
    (∀ s : Ide Pid, Reachable step (fun _ _ => True) (· = start buf drive havedisk1) s → ∃ q,
      s.idequeue.Spells q ∧ q.Nodup ∧ s.queued = s.completed ++ q ∧
      (∀ c, s.device.active = some c → ∃ i, q.head? = some i ∧ c = (s.buf i).request ∧
        ((s.buf i).dirty = true → s.device.data = (s.buf i).data)) ∧
      (∀ p i a t, a = .iderw p i ∨ a = .resume p ∧ s.pc p = .woken i → s.step a = .ok t → t.pc p = .out →
        (t.buf i).valid = true ∧ (t.buf i).dirty = false) ∧
      ((∀ i ∈ q, (s.buf i).blockno < FSSIZE) → ∃ as t, (∀ a ∈ as, a = .complete ∨ a = .ideintr) ∧
        runList step s as = .ok t ∧ ∀ p i, s.Waits p i → ∃ u, t.step (.resume p) = .ok u ∧ u.pc p = .out)) ∧
    ∀ s : Ide Pid, Reachable step (fun s a => ∀ p i, a = .iderw p i → (s.buf i).dev = ROOTDEV)
        (· = start buf drive havedisk1) s → ∃ st,
      runList Store.memStep (memory buf (drive true)) s.trace = .ok st ∧
      s.trace.filterMap MemAct.ended = s.completed ∧ st.buf = s.buf ∧
      (s.device.intr = false → st.disk = s.device.drive true) := by
  constructor
  · intro s hs
    obtain ⟨q, drive', h⟩ : ∃ q drive', Inv s q drive' := by
      refine hs.invariant (P := fun s => ∃ q drive', Inv s q drive') ?_ ?_
      · rintro _ rfl
        exact ⟨[], drive, .start buf drive havedisk1⟩
      · rintro s a t ⟨q, drive', h⟩ - ht
        obtain ⟨q', drive'', h', -⟩ := h.step ht
        exact ⟨q', drive'', h'⟩
    refine ⟨q, h.spells, h.nodup, h.order, fun c hc => ?_, fun p i a t ha ht hout => ?_, fun hn => ?_⟩
    · cases q with
      | nil =>
        rw [h.serves.1] at hc
        cases hc
      | cons i q =>
        cases h.serves.1 with
        | working active _ _ data =>
          rw [active] at hc
          exact ⟨i, rfl, (Option.some.inj hc).symm, data⟩
        | done active _ _ _ =>
          rw [active] at hc
          cases hc
    · rcases ha with rfl | ⟨rfl, hp⟩
      · -- `iderw` sleeps at least once.
        rw [Ide.step] at ht
        split at ht
        · rename_i hc
          have hsleeps := (ensures_iff.mp (h.iderw hc.1 hc.2) t ht).2.2
          rw [hout] at hsleeps
          cases hsleeps
        · cases ht
      · rw [Ide.step, hp] at ht
        cases ht
        unfold await at hout ⊢
        split
        · rename_i hdone
          exact hdone
        · rename_i hmore
          rw [if_neg hmore] at hout
          dsimp only at hout
          rw [update_self] at hout
          cases hout
    · obtain ⟨as, t, has, hrun, ⟨drive'', hempty⟩, hkept⟩ := h.drain hn
      exact ⟨as, t, has, hrun, fun p i hw => hempty.returns (hkept p i hw)⟩
  · intro s hs
    obtain ⟨q, drive', h⟩ : ∃ q drive', Follows s q drive' (memory buf (drive true)) := by
      refine hs.invariant (P := fun s => ∃ q drive', Follows s q drive' (memory buf (drive true))) ?_ ?_
      · rintro _ rfl
        exact ⟨[], drive, .start buf drive havedisk1, rfl, nofun, rfl⟩
      · rintro s a t ⟨q, drive', h⟩ hg ht
        exact h.step hg ht
    refine ⟨_, h.run, h.ended, rfl, fun hintr => ?_⟩
    cases q with
    | nil => exact congrFun h.serves.2.2.symm true
    | cons i q =>
      cases h.serves.1 with
      | working _ _ drives _ => exact congrFun drives.symm true
      | done _ intr _ _ =>
        rw [hintr] at intr
        cases intr

def forDisk1 (s : Ide Pid) : Act Pid → Bool
  | .iderw _ i => (s.buf i).dev == ROOTDEV
  | _ => true

/-- One process writes a block, and another one reads it while the write is queued. -/
theorem ide_refines_memide_two : ∃ (s : Ide Bool) (st : Store), s.completed = [0] ∧ s.idequeue.Spells [1] ∧
    runList Store.memStep (memory (fun _ => { dev := NODEV }) fun _ => Bytes.Buffer.zero) s.trace = .ok st ∧
    st.buf = s.buf ∧ s.trace.filterMap MemAct.ended = [0] := by
  obtain ⟨s, hs, hcompleted, hqueued⟩ : ∃ s, runList (fun (s : Ide Bool) a => if forDisk1 s a then s.step a else .sleep)
      (start (fun _ => { dev := NODEV }) (fun _ _ => Bytes.Buffer.zero) true)
      [.bget false 0 { busy := true, dirty := true, dev := 1, blockno := 5 }, .bget true 1 { busy := true, dev := 1, blockno := 5 },
        .iderw false 0, .iderw true 1, .complete, .ideintr] = .ok s ∧ s.completed = [0] ∧ s.queued = [0, 1] := by
    decide +kernel
  have hr : Reachable step (fun s a => ∀ p i, a = .iderw p i → (s.buf i).dev = ROOTDEV)
      (· = start (fun _ => { dev := NODEV }) (fun _ _ => Bytes.Buffer.zero) true) s := by
    refine Reachable.runGuarded (g := forDisk1) ?_ (.init rfl) hs
    rintro t a hg p i rfl
    exact beq_iff_eq.mp hg
  obtain ⟨hqueue, hmem⟩ := @ide_refines_memide Bool _ (fun _ => { dev := NODEV }) (fun _ _ => Bytes.Buffer.zero) true
  obtain ⟨q, hspells, -, horder, -⟩ := hqueue s (hr.mono fun _ _ _ => trivial)
  obtain ⟨st, hrun, hended, hbuf, -⟩ := hmem s hr
  rw [hcompleted, hqueued] at horder
  obtain rfl : [1] = q := List.cons.inj horder |>.2
  exact ⟨s, st, hcompleted, hspells, hrun, hbuf, hended.trans hcompleted⟩

end

end Ide
end Xv6
