import Mathlib.Data.Fintype.Card
import Xv6.Theorems.LogFace

/-! The invariant of the log machine: the cache is in order and its holders are known (`Base`), at most one
    process runs log code and then none is in an operation (`Ctl`), and the face is in the phase that the log
    code has reached (`AtPc`). -/

namespace Xv6
open Function (update update_of_ne update_self)

def PState.isOp : PState → Bool
  | .op _ => true
  | _ => false

namespace Sys
variable {Pid : Type}

/-- The holder of `i` has changed it, or is inside `log_write` with it. -/
def Chg (s : Sys Pid) (i : BufIdx) : Prop := ∃ p g, s.hold i = some (p, g) ∧ g ≠ .read

def face (s : Sys Pid) : Face where
  disk := s.st.disk
  view := s.st.view
  pinned := s.st.Pinned
  chg := fun b => ∃ i, s.st.At b i ∧ s.Chg i
  lh := s.lh
  cur := s.cur
  commits := s.commits

def Held (s : Sys Pid) (p : Pid) (i : BufIdx) (b : Nat) : Prop := s.hold i = some (p, .read) ∧ s.st.At b i

structure Base (cfg : LogCfg) (s : Sys Pid) : Prop where
  store : s.st.Ok s.Chg
  size : s.st.disksize = cfg.disksize
  busy : ∀ i, (s.st.buf i).busy = (s.hold i).isSome
  valid : ∀ i, (s.hold i).isSome = true → (s.st.buf i).valid = true
  home : ∀ i, s.Chg i → cfg.Home (s.st.buf i).blockno

structure Ctl [Fintype Pid] (s : Sys Pid) : Prop where
  one : ∀ p q pc pc', s.proc p = .log pc → s.proc q = .log pc' → p = q
  logging : (∃ p pc, s.proc p = .log pc) ↔ s.committing = true ∨ s.booting = true
  excl : ∀ p pc q, s.proc p = .log pc → (s.proc q).isOp = false
  count : s.outstanding = (Finset.univ.filter fun p => (s.proc p).isOp = true).card
  chg : ∀ i p g, s.hold i = some (p, g) → g ≠ .read → (s.proc p).isOp = true
  boot : s.booting = true → s.committing = false

/-- What holds while log code is at `pc`; `H i b` says that it holds buffer `i` of block `b`. -/
def AtPc (cfg : LogCfg) (d₀ : Nat → Block) (f : Face) (H : BufIdx → Nat → Prop) : LogPc → Prop
  | .readHead => f.Booted cfg d₀
  | .readHeadRelse _ => f.Installing cfg d₀ 0
  | .commit => f.Quiet cfg d₀ ∧ ∀ b, ¬f.chg b
  | .writeLog t => f.WroteLog cfg d₀ t ∧ t ≤ f.lh.length ∧ 0 < f.lh.length ∧ (0 < t → f.lh.length < cfg.size)
  | .writeLogFrom t dst =>
    f.WroteLog cfg d₀ t ∧ t < f.lh.length ∧ f.lh.length < cfg.size ∧ H dst (cfg.start + t + 1)
  | .writeLogCopy t dst src =>
    f.WroteLog cfg d₀ t ∧ t < f.lh.length ∧ f.lh.length < cfg.size ∧ H dst (cfg.start + t + 1) ∧
      H src (f.lh.getD t 0)
  | .writeLogRelseFrom t _ _ => f.WroteLog cfg d₀ (t + 1) ∧ t < f.lh.length ∧ f.lh.length < cfg.size
  | .writeLogRelseTo t _ => f.WroteLog cfg d₀ (t + 1) ∧ t < f.lh.length ∧ f.lh.length < cfg.size
  | .writeHead false => f.WroteLog cfg d₀ f.lh.length ∧ f.lh.length < cfg.size
  | .writeHeadFill false buf => f.WroteLog cfg d₀ f.lh.length ∧ f.lh.length < cfg.size ∧ H buf cfg.start
  | .writeHeadRelse false _ => f.Installing cfg d₀ 0
  | .installTrans t => f.Installing cfg d₀ t ∧ t ≤ f.lh.length
  | .installDst t lbuf => f.Installing cfg d₀ t ∧ t < f.lh.length ∧ H lbuf (cfg.start + t + 1)
  | .installCopy t lbuf dbuf =>
    f.Installing cfg d₀ t ∧ t < f.lh.length ∧ H lbuf (cfg.start + t + 1) ∧ H dbuf (f.lh.getD t 0)
  | .installRelseLog t _ _ => f.Installing cfg d₀ (t + 1) ∧ t < f.lh.length
  | .installRelseDst t _ => f.Installing cfg d₀ (t + 1) ∧ t < f.lh.length
  | .clear => f.Installing cfg d₀ f.lh.length
  | .writeHead true => f.Cleared cfg d₀
  | .writeHeadFill true buf => f.Cleared cfg d₀ ∧ H buf cfg.start
  | .writeHeadRelse true _ => f.Quiet cfg d₀ ∧ (∀ b, ¬f.chg b) ∧ f.lh = []
  | .done => f.Quiet cfg d₀ ∧ (∀ b, ¬f.chg b) ∧ f.lh = []

theorem AtPc.mono {cfg : LogCfg} {d₀ : Nat → Block} {f : Face} {H H' : BufIdx → Nat → Prop} {pc : LogPc}
    (h : AtPc cfg d₀ f H pc) (hH : ∀ i b, H i b → H' i b) : AtPc cfg d₀ f H' pc := by
  cases pc with
  | writeLogFrom t dst => exact ⟨h.1, h.2.1, h.2.2.1, hH _ _ h.2.2.2⟩
  | writeLogCopy t dst src => exact ⟨h.1, h.2.1, h.2.2.1, hH _ _ h.2.2.2.1, hH _ _ h.2.2.2.2⟩
  | writeHeadFill erase buf =>
    cases erase
    · exact ⟨h.1, h.2.1, hH _ _ h.2.2⟩
    · exact ⟨h.1, hH _ _ h.2⟩
  | installDst t lbuf => exact ⟨h.1, h.2.1, hH _ _ h.2.2⟩
  | installCopy t lbuf dbuf => exact ⟨h.1, h.2.1, hH _ _ h.2.2.1, hH _ _ h.2.2.2⟩
  | writeHead erase => cases erase <;> exact h
  | writeHeadRelse erase buf => cases erase <;> exact h
  | _ => exact h

structure Inv [Fintype Pid] (cfg : LogCfg) (d₀ : Nat → Block) (s : Sys Pid) : Prop where
  base : s.Base cfg
  ctl : s.Ctl
  quiet : (∀ p pc, s.proc p ≠ .log pc) → s.face.Quiet cfg d₀
  log : ∀ p pc, s.proc p = .log pc → AtPc cfg d₀ s.face (s.Held p) pc

/-! ### The primitives -/

section Primitives
variable {cfg : LogCfg} {s t : Sys Pid} {p q : Pid} {i j : BufIdx} {b c : Nat}

structure SameCtl (s t : Sys Pid) : Prop where
  outstanding : t.outstanding = s.outstanding
  committing : t.committing = s.committing
  booting : t.booting = s.booting
  proc : t.proc = s.proc
  nextOp : t.nextOp = s.nextOp
  hold : ∀ i q g, t.hold i = some (q, g) → g ≠ .read → s.hold i = some (q, g)

/-- The parts of the state that no buffer operation touches. -/
structure Same (s t : Sys Pid) : Prop extends SameCtl s t where
  lh : t.lh = s.lh
  cur : t.cur = s.cur
  commits : t.commits = s.commits
  history : t.history = s.history

theorem not_chg_of_read (hi : s.hold i = some (p, .read)) : ¬s.Chg i := by
  rintro ⟨q, g, hq, hg⟩
  rw [hi] at hq
  cases hq
  exact hg rfl

section
variable (hb : s.Base cfg)
include hb

theorem Base.busy_of_chg (i : BufIdx) (h : s.Chg i) : (s.st.buf i).busy = true := by
  obtain ⟨p, g, h, -⟩ := h
  simp [hb.busy, h]

theorem Base.coherent (hp : ¬s.face.pinned b) (hc : ¬s.face.chg b) :
    s.face.view b = s.face.disk b :=
  hb.store.view_eq_disk hp fun i hi hci => hc ⟨i, hi, hci⟩

theorem Held.data (h : s.Held p i b) : (s.st.buf i).data = s.face.view b :=
  (hb.store.view_of_valid h.2 (hb.valid i (by simp [h.1]))).symm

theorem Base.bread (h : s.bread p b = .ok (i, t)) :
    t.Base cfg ∧ t.face = s.face ∧ Same s t ∧ t.Held p i b ∧ ∀ q j c, s.Held q j c → t.Held q j c := by
  unfold Sys.bread at h
  obtain ⟨⟨i', st⟩, hread, h⟩ := Outcome.bind_eq_ok.mp h
  cases h
  obtain ⟨ok, rd⟩ := hb.store.bread hb.busy_of_chg hread
  have hfree : s.hold i = none := by
    have := rd.idle
    rw [hb.busy] at this
    simpa using this
  have hat : ∀ j, j ≠ i → ∀ c, st.At c j ↔ s.st.At c j := fun j hj c => by
    simp only [Store.At, rd.others j hj]
  have hold_ne : ∀ j, j ≠ i → update s.hold i (some (p, Stage.read)) j = s.hold j := fun j hj =>
    update_of_ne hj _ _
  -- Nobody held `i`, so the changed buffers are the same.
  have hchg : ∀ j, Sys.Chg { s with st := st, hold := update s.hold i (some (p, Stage.read)) } j ↔ s.Chg j := by
    intro j
    by_cases hj : j = i
    · subst hj
      simp [Chg, hfree]
    · simp only [Chg, hold_ne j hj]
  have hne : ∀ j, s.Chg j → j ≠ i := by
    rintro j ⟨q, g, hq, -⟩ rfl
    simp [hfree] at hq
  have hsame : ∀ j q g, update s.hold i (some (p, Stage.read)) j = some (q, g) → g ≠ .read →
      s.hold j = some (q, g) := by
    intro j q g hj hg
    by_cases hji : j = i
    · subst hji
      simp only [update_self, Option.some.injEq, Prod.mk.injEq] at hj
      exact absurd hj.2.symm hg
    · rwa [hold_ne j hji] at hj
  refine ⟨⟨?_, rd.disksize.trans hb.size, ?_, ?_, ?_⟩, ?_, ⟨⟨rfl, rfl, rfl, rfl, rfl, hsame⟩, rfl, rfl, rfl, rfl⟩,
    ⟨update_self .., rd.here⟩, ?_⟩
  · rw [show Sys.Chg { s with st := st, hold := update s.hold i (some (p, Stage.read)) } = s.Chg from
      funext fun j => propext (hchg j)]
    exact ok
  · intro j
    by_cases hj : j = i
    · subst hj
      simp [rd.busy]
    · simp only [hold_ne j hj, rd.others j hj]
      exact hb.busy j
  · intro j hj'
    by_cases hj : j = i
    · subst hj
      exact rd.valid
    · simp only [hold_ne j hj, rd.others j hj] at hj' ⊢
      exact hb.valid j hj'
  · intro j hj
    have hj' := (hchg j).mp hj
    simp only [rd.others j (hne j hj')]
    exact hb.home j hj'
  · have hch : (fun c => ∃ j, st.At c j ∧ Sys.Chg { s with st := st, hold := update s.hold i (some (p, Stage.read)) } j) =
        fun c => ∃ j, s.st.At c j ∧ s.Chg j := by
      funext c
      refine propext (exists_congr fun j => ?_)
      rw [hchg]
      exact and_congr_left fun hj => hat j (hne j hj) c
    simp only [face, rd.disk, hch, show st.view = s.st.view from funext rd.view,
      show st.Pinned = s.st.Pinned from funext fun c => propext (rd.pinned c)]
  · rintro q j c ⟨hh, ha⟩
    have hj : j ≠ i := by
      rintro rfl
      rw [hfree] at hh
      cases hh
    exact ⟨(hold_ne j hj).trans hh, (hat j hj c).mpr ha⟩

theorem Base.brelse (hi : ¬s.Chg i) (h : s.brelse i = .ok t) :
    t.Base cfg ∧ t.face = s.face ∧ Same s t ∧ ∀ q j c, j ≠ i → s.Held q j c → t.Held q j c := by
  unfold Sys.brelse at h
  obtain ⟨st, hrel, h⟩ := Outcome.bind_eq_ok.mp h
  cases h
  obtain ⟨ok, rl⟩ := hb.store.brelse hrel
  have hat : ∀ j c, st.At c j ↔ s.st.At c j := fun j c => by
    by_cases hj : j = i
    · subst hj
      simp only [Store.At, rl.self]
    · simp only [Store.At, rl.others j hj]
  have hchg : Sys.Chg { s with st := st, hold := update s.hold i none } = s.Chg := by
    funext j
    by_cases hj : j = i
    · subst hj
      have : ¬Sys.Chg { s with st := st, hold := update s.hold j none } j := by
        rintro ⟨q, g, hq, -⟩
        simp at hq
      exact propext (iff_of_false this hi)
    · simp only [Chg, update_of_ne hj]
  have hsame : ∀ j q g, update s.hold i none j = some (q, g) → g ≠ .read → s.hold j = some (q, g) := by
    intro j q g hj _
    by_cases hji : j = i
    · subst hji
      simp at hj
    · rwa [update_of_ne hji] at hj
  refine ⟨⟨?_, rl.disksize.trans hb.size, ?_, ?_, ?_⟩, ?_, ⟨⟨rfl, rfl, rfl, rfl, rfl, hsame⟩, rfl, rfl, rfl, rfl⟩, ?_⟩
  · rw [hchg]
    exact ok
  · intro j
    by_cases hj : j = i
    · subst hj
      simp [rl.self]
    · simp only [update_of_ne hj, rl.others j hj]
      exact hb.busy j
  · intro j hj'
    by_cases hj : j = i
    · subst hj
      simp at hj'
    · simp only [update_of_ne hj, rl.others j hj] at hj' ⊢
      exact hb.valid j hj'
  · intro j hj
    rw [hchg] at hj
    have hj' : j ≠ i := fun e => hi (e ▸ hj)
    simp only [rl.others j hj']
    exact hb.home j hj
  · simp only [face, rl.disk, hchg, hat, show st.view = s.st.view from funext rl.view,
      show st.Pinned = s.st.Pinned from funext fun c => propext (rl.pinned c)]
  · rintro q j c hj ⟨hh, ha⟩
    exact ⟨(update_of_ne hj _ _).trans hh, (hat j c).mpr ha⟩

theorem Base.fillWrite {x : Block} (hh : s.Held p i b) (h : s.fillWrite i x = .ok t) :
    t.Base cfg ∧ t.face = s.face.wrote b x ∧ Same s t ∧ ∀ q j c, s.Held q j c → t.Held q j c := by
  unfold Sys.fillWrite at h
  obtain ⟨st, hw, h⟩ := Outcome.bind_eq_ok.mp h
  cases h
  obtain ⟨ok, wr⟩ := hb.store.fillWrite hh.2 (fun _ _ => id) hw
  have hat : ∀ j c, st.At c j ↔ s.st.At c j := fun j c => by
    by_cases hj : j = i
    · subst hj
      have h1 := wr.here
      have h2 := hh.2
      simp only [Store.At] at h1 h2 ⊢
      rw [h1.1, h1.2, h2.1, h2.2]
    · simp only [Store.At, wr.others j hj]
  refine ⟨⟨ok, wr.disksize.trans hb.size, ?_, ?_, ?_⟩, ?_,
    ⟨⟨rfl, rfl, rfl, rfl, rfl, fun _ _ _ hj _ => hj⟩, rfl, rfl, rfl, rfl⟩, ?_⟩
  · intro j
    by_cases hj : j = i
    · subst hj
      exact wr.busy.trans (hb.busy j)
    · simp only [wr.others j hj]
      exact hb.busy j
  · intro j hj'
    by_cases hj : j = i
    · subst hj
      exact wr.valid
    · simp only [wr.others j hj]
      exact hb.valid j hj'
  · intro j hj
    have hj' : j ≠ i := by
      rintro rfl
      obtain ⟨q, g, hq, hg⟩ := hj
      rw [show s.hold j = _ from hh.1] at hq
      cases hq
      exact hg rfl
    simp only [wr.others j hj']
    exact hb.home j hj
  · have hch : (fun c => ∃ j, st.At c j ∧ Sys.Chg { s with st := st } j) = fun c => ∃ j, s.st.At c j ∧ s.Chg j := by
      simp only [hat, Chg]
    simp only [face, Face.wrote, hch, wr.disk, wr.view,
      show st.Pinned = fun c => c ≠ b ∧ s.st.Pinned c from funext fun c => propext (wr.pinned c)]
  · rintro q j c ⟨hh', ha⟩
    exact ⟨hh', (hat j c).mpr ha⟩

theorem Base.at_of_hold {g : Stage} (hi : s.hold i = some (p, g)) :
    (s.st.buf i).valid = true ∧ s.st.At (s.st.buf i).blockno i ∧ (s.st.buf i).blockno < cfg.disksize := by
  have hv := hb.valid i (by simp [hi])
  obtain ⟨hdev, hsize⟩ := hb.store.root i hv
  exact ⟨hv, ⟨hdev, rfl⟩, hb.size ▸ hsize⟩

theorem Base.of_stage {g g' : Stage} (hi : s.hold i = some (p, g))
    (hh : t.hold = update s.hold i (some (p, g'))) (store : t.st.Ok t.Chg)
    (size : t.st.disksize = s.st.disksize)
    (hbuf : ∀ j, (t.st.buf j).busy = (s.st.buf j).busy ∧ (t.st.buf j).valid = (s.st.buf j).valid ∧
      (t.st.buf j).blockno = (s.st.buf j).blockno)
    (hhome : g' ≠ .read → cfg.Home (s.st.buf i).blockno) : t.Base cfg where
  store := store
  size := size.trans hb.size
  busy := fun j => by
    rw [(hbuf j).1, hb.busy, hh]
    by_cases hji : j = i
    · subst hji
      simp [hi]
    · rw [update_of_ne hji]
  valid := fun j hj => by
    rw [(hbuf j).2.1]
    refine hb.valid j ?_
    rw [hh] at hj
    by_cases hji : j = i
    · subst hji
      simp [hi]
    · rwa [update_of_ne hji] at hj
  home := fun j hj => by
    rw [(hbuf j).2.2]
    obtain ⟨q, x, hq, hx⟩ := hj
    rw [hh] at hq
    by_cases hji : j = i
    · subst hji
      rw [update_self] at hq
      cases hq
      exact hhome hx
    · rw [update_of_ne hji] at hq
      exact hb.home j ⟨q, x, hq, hx⟩

end

theorem chg_update {g : Stage} (hh : t.hold = update s.hold i (some (p, g))) (j : BufIdx) (hji : j ≠ i) :
    t.Chg j ↔ s.Chg j := by
  simp only [Chg, hh, update_of_ne hji]

theorem chg_update_self {g : Stage} (hh : t.hold = update s.hold i (some (p, g))) :
    t.Chg i ↔ g ≠ .read := by
  simp only [Chg, hh, update_self, Option.some.injEq, Prod.mk.injEq]
  exact ⟨fun ⟨_, _, ⟨_, hx⟩, hg⟩ => hx ▸ hg, fun hg => ⟨p, g, ⟨rfl, rfl⟩, hg⟩⟩

theorem chg_enter {g : Stage} (hh : t.hold = update s.hold i (some (p, g))) (hg : g ≠ .read)
    (hat : ∀ c j, t.st.At c j ↔ s.st.At c j) (hi : s.st.At b i) :
    (fun c => ∃ j, t.st.At c j ∧ t.Chg j) = fun c => c = b ∨ ∃ j, s.st.At c j ∧ s.Chg j := by
  funext c
  refine propext ⟨fun ⟨j, hj, hc⟩ => ?_, fun h => ?_⟩
  · by_cases hji : j = i
    · subst hji
      exact Or.inl (((hat c j).mp hj).2.symm.trans hi.2)
    · exact Or.inr ⟨j, (hat c j).mp hj, (chg_update hh j hji).mp hc⟩
  · rcases h with rfl | ⟨j, hj, hc⟩
    · exact ⟨i, (hat c i).mpr hi, (chg_update_self hh).mpr hg⟩
    · by_cases hji : j = i
      · subst hji
        exact ⟨j, (hat c j).mpr hj, (chg_update_self hh).mpr hg⟩
      · exact ⟨j, (hat c j).mpr hj, (chg_update hh j hji).mpr hc⟩

theorem chg_leave (hb : s.Base cfg) (hh : t.hold = update s.hold i (some (p, .read)))
    (hat : ∀ c j, t.st.At c j ↔ s.st.At c j) (hi : s.st.At b i) :
    (fun c => ∃ j, t.st.At c j ∧ t.Chg j) = fun c => c ≠ b ∧ ∃ j, s.st.At c j ∧ s.Chg j := by
  have hself : ¬t.Chg i := fun h => (chg_update_self hh).mp h rfl
  funext c
  refine propext ⟨fun ⟨j, hj, hc⟩ => ?_, fun ⟨hcb, j, hj, hc⟩ => ?_⟩
  · have hji : j ≠ i := fun e => hself (e ▸ hc)
    exact ⟨fun e => hb.store.other hi j hji (e ▸ (hat c j).mp hj), j, (hat c j).mp hj, (chg_update hh j hji).mp hc⟩
  · have hji : j ≠ i := by
      rintro rfl
      exact hcb (hj.2.symm.trans hi.2)
    exact ⟨j, (hat c j).mpr hj, (chg_update hh j hji).mpr hc⟩

theorem lh_lt_nbuf (nodup : s.lh.Nodup)
    (pinned : ∀ c ∈ s.lh, s.st.Pinned c) (hat : s.st.At b i) (hb : b ∉ s.lh) : s.lh.length < NBUF := by
  have hsub : s.lh.toFinset ⊆ (Finset.univ.erase i).image fun j => (s.st.buf j).blockno := by
    intro c hc
    rw [List.mem_toFinset] at hc
    obtain ⟨j, hj, -⟩ := pinned c hc
    have hji : j ≠ i := by
      rintro rfl
      exact hb (hat.2.symm.trans hj.2 ▸ hc)
    exact Finset.mem_image.mpr ⟨j, Finset.mem_erase.mpr ⟨hji, Finset.mem_univ j⟩, hj.2⟩
  have hcard : (Finset.univ.erase i : Finset BufIdx).card = NBUF - 1 := by
    rw [Finset.card_erase_of_mem (Finset.mem_univ i), Finset.card_univ, Fintype.card_fin]
  have hle := (Finset.card_le_card hsub).trans Finset.card_image_le
  rw [hcard, List.toFinset_card_of_nodup nodup] at hle
  simp only [NBUF, MAXOPBLOCKS] at hle ⊢
  omega

end Primitives

theorem AtPc.phase {cfg : LogCfg} {d₀ : Nat → Block} {f : Face} {H : BufIdx → Nat → Prop} {pc : LogPc} (h : AtPc cfg d₀ f H pc) :
    f.Quiet cfg d₀ ∨ (∃ t, f.Installing cfg d₀ t) ∨ f.Cleared cfg d₀ ∨ f.Booted cfg d₀ := by
  cases pc with
  | readHead => exact .inr (.inr (.inr h))
  | commit | done => exact .inl h.1
  | writeLog _ | writeLogFrom _ _ | writeLogCopy _ _ _ | writeLogRelseFrom _ _ _ | writeLogRelseTo _ _ =>
    exact .inl h.1.toQuiet
  | writeHead erase =>
    cases erase
    · exact .inl h.1.toQuiet
    · exact .inr (.inr (.inl h))
  | writeHeadFill erase _ =>
    cases erase
    · exact .inl h.1.toQuiet
    · exact .inr (.inr (.inl h.1))
  | writeHeadRelse erase _ =>
    cases erase
    · exact .inr (.inl ⟨_, h⟩)
    · exact .inl h.1
  | installTrans _ | installDst _ _ | installCopy _ _ _ | installRelseLog _ _ _ | installRelseDst _ _ =>
    exact .inr (.inl ⟨_, h.1⟩)
  | readHeadRelse _ | clear => exact .inr (.inl ⟨_, h⟩)

theorem Inv.phase [Fintype Pid] {cfg : LogCfg} {d₀ : Nat → Block} {s : Sys Pid} (inv : s.Inv cfg d₀) :
    s.face.Quiet cfg d₀ ∨ (∃ t, s.face.Installing cfg d₀ t) ∨ s.face.Cleared cfg d₀ ∨ s.face.Booted cfg d₀ := by
  by_cases h : ∃ p pc, s.proc p = .log pc
  · obtain ⟨p, pc, hp⟩ := h
    exact (inv.log p pc hp).phase
  · exact .inl (inv.quiet fun p pc hp => h ⟨p, pc, hp⟩)

/-- In every state of the machine a crash can be recovered from. -/
theorem Inv.recoverable [Fintype Pid] {cfg : LogCfg} {d₀ : Nat → Block} {s : Sys Pid} (inv : s.Inv cfg d₀) :
    Recoverable cfg (s.face.com d₀) s.face.disk := by
  rcases inv.phase with quiet | ⟨t, installing⟩ | cleared | booted
  · exact quiet.recoverable
  · exact installing.recoverable
  · exact cleared.recoverable
  · exact booted.recoverable

end Sys
end Xv6
