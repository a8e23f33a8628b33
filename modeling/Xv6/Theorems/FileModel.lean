import Xv6.Theorems.FsLogs

/-! Files are byte sequences: the calls of `readi` and `writei` that locked inodes get, in any order, return what they
    would return if each file were just a list of bytes, as long as the disk and the log have room for what is written. -/

namespace Xv6
open Bytes Ownership
open Function (update update_self)
open Outcome (ok_bind)
open Machine

namespace Fs

/-! ### The model: a list of bytes for every inode number -/

inductive Io where
  | write (i : InodeIdx) (src : Nat → UInt8) (off n : UInt32)
  | read (i : InodeIdx) (off n : UInt32)

def Io.slot : Io → InodeIdx
  | .write i _ _ _ => i
  | .read i _ _ => i

abbrev Contents := Nat → List UInt8

/-- The bytes `new` put at offset `off`. -/
def splice (old new : List UInt8) (off : Nat) : List UInt8 := old.take off ++ new ++ old.drop (off + new.length)

/-- What a call returns, with the bytes read, and what the files contain afterwards. -/
def specIo (inum : InodeIdx → Nat) (files : Contents) : Io → (Int × List UInt8) × Contents
  | .write i src off n =>
    if Rejects (files (inum i)).length off.toNat n.toNat then ((-1, []), files)
    else ((n.toNat, []), update files (inum i) (splice (files (inum i)) ((List.range n.toNat).map src) off.toNat))
  | .read i off n =>
    if (files (inum i)).length < off.toNat ∨ 2 ^ 32 ≤ off.toNat + n.toNat then ((-1, []), files)
    else (((min n.toNat ((files (inum i)).length - off.toNat) : Nat), ((files (inum i)).drop off.toNat).take n.toNat), files)

def specIos (inum : InodeIdx → Nat) : Contents → List Io → List (Int × List UInt8) × Contents
  | files, [] => ([], files)
  | files, a :: as =>
    let (r, files) := specIo inum files a
    let (rs, files) := specIos inum files as
    (r :: rs, files)

/-! ### The calls -/

def io (devsw : DevSw) (fs : Fs) : Io → Outcome ((Int × List UInt8) × Fs)
  | .write i src off n => do
    let (r, fs) ← fs.writei devsw i src off n
    pure ((r, []), fs)
  | .read i off n => do
    let (r, bs, fs) ← fs.readi devsw i off n
    pure ((r, bs), fs)

/-- Calls one after another, each with the log as it finds it. -/
def ios (devsw : DevSw) : Fs → List (Trans × Io) → Outcome (List (Int × List UInt8) × Fs)
  | fs, [] => .ok ([], fs)
  | fs, (log, a) :: as => do
    let (r, fs, _) ← fs.inTrans log (fs.io devsw a)
    let (rs, fs) ← ios devsw fs as
    pure (r :: rs, fs)

def needs (fs : Fs) : Io → Nat
  | .write i _ off n =>
    if Rejects (fs.inode i).size.toNat off.toNat n.toNat then 0
    else fs.img.lacking (fs.inode i).inum (blocks (off.toNat + n.toNat))
  | .read _ _ _ => 0

def logs (fs : Fs) : Io → Nat
  | .write i _ off n =>
    if Rejects (fs.inode i).size.toNat off.toNat n.toNat then 0 else fs.writeBlocks i off.toNat n.toNat
  | .read _ _ _ => 0

/-- A transaction has begun, and the log has room for so many more blocks (and for none if none are logged). -/
def Room (fs : Fs) (log : Trans) (blocks : Nat) : Prop :=
  0 < blocks → 0 < log.outstanding ∧ log.lh.length + blocks < min LOGSIZE (fs.sb.nlog - 1)

/-- Each call finds enough free blocks, and room in the log. -/
def Enough (devsw : DevSw) : Fs → List (Trans × Io) → Prop
  | _, [] => True
  | fs, (log, a) :: as => fs.needs a ≤ fs.free ∧ fs.Room log (fs.logs a) ∧
    ∀ r fs' log', fs.inTrans log (fs.io devsw a) = .ok (r, fs', log') → Enough devsw fs' as

end Fs

/-! ### The log -/

theorem Trans.logWrites_ok {size : Nat} {log : Trans} (hop : 0 < log.outstanding) : ∀ {bs : List Nat},
    log.lh.length + bs.toFinset.card < min LOGSIZE (size - 1) → ∃ lh, log.logWrites size bs = .ok { log with lh := lh } ∧
      lh.length ≤ log.lh.length + bs.toFinset.card ∧ ∀ b ∈ bs, b ∈ lh
  | [], _ => ⟨log.lh, rfl, Nat.le_add_right _ _, fun _ hb => absurd hb List.not_mem_nil⟩
  | b :: bs, hroom => by
    have hle : bs.toFinset.card ≤ (b :: bs).toFinset.card := Finset.card_le_card (by simp)
    obtain ⟨lh, hrun, hlen, hmem⟩ := @logWrites_ok size log hop bs (by omega)
    refine ⟨if b ∈ lh then lh else lh ++ [b], ?_, ?_, fun c hc => ?_⟩
    · rw [logWrites, hrun, ok_bind, logWrite, if_neg (by dsimp only; omega), if_neg (by dsimp only; omega)]
    · split
      · omega
      · rename_i hnew
        have hcard : (b :: bs).toFinset.card = bs.toFinset.card + 1 := by
          rw [List.toFinset_cons, Finset.card_insert_of_notMem fun hb => hnew (hmem b (List.mem_toFinset.mp hb))]
        rw [List.length_append, List.length_singleton]
        omega
    · rcases List.mem_cons.mp hc with rfl | hc
      · split
        · assumption
        · simp
      · split
        · exact hmem c hc
        · exact List.mem_append_left _ (hmem c hc)

namespace Fs
variable {fs fs' : Fs} {i : InodeIdx} {devsw : DevSw} {log : Trans}

theorem inTrans_ok {α : Type} {r : α} {S : Finset Nat} {call : Outcome (α × Fs)} (hrun : call = .ok (r, fs')) (hlogs : Logs fs fs' S)
    (hroom : fs.Room log S.card) : ∃ log', fs.inTrans log call = .ok (r, fs', log') := by
  have hsince := hlogs.loggedSince
  rw [inTrans, hrun, ok_bind]
  dsimp only
  rcases Nat.eq_zero_or_pos S.card with hzero | hpos
  · rw [Finset.card_eq_zero.mp hzero, List.toFinset_eq_empty_iff] at hsince
    rw [hsince]
    exact ⟨log, rfl⟩
  · obtain ⟨hop, hlt⟩ := hroom hpos
    obtain ⟨lh, hwrites, -⟩ := Trans.logWrites_ok hop (hsince ▸ hlt)
    rw [hwrites]
    exact ⟨_, rfl⟩

theorem inTrans_same {α : Type} (r : α) (log : Trans) : fs.inTrans log (.ok (r, fs)) = .ok (r, fs, log) := by
  rw [inTrans, ok_bind]
  dsimp only
  rw [loggedSince, Nat.sub_self]
  rfl

theorem writei_ok (devsw : DevSw) (wf : fs.Wf) (hl : fs.Locked i) (htype : (fs.inode i).type.toNat ≠ T_DEV)
    (src : Nat → UInt8) {off n : UInt32} (h : ¬Rejects (fs.inode i).size.toNat off.toNat n.toNat)
    (hroom : fs.img.lacking (fs.inode i).inum (blocks (off.toNat + n.toNat)) ≤ fs.free) :
    ∃ fs', fs.writei devsw i src off n = .ok ((n.toNat : Int), fs') ∧ Written fs fs' i src off.toNat n.toNat := by
  have hspec := @writei_spec fs i src off n devsw wf hl htype h
  obtain ⟨⟨r, fs'⟩, heq, rfl, hw⟩ := hspec.exists_ok fun o ho => Nat.not_lt.mpr hroom ho.2
  exact ⟨fs', heq, hw⟩

theorem Wf.length_contents (wf : fs.Wf) (hl : fs.Locked i) :
    (fs.img.contents (fs.inode i).inum).length = (fs.inode i).size.toNat := by
  simp [Img.contents, (wf.synced i hl.1 hl.2.2).1]

def SameSlots (fs fs' : Fs) : Prop := ∀ j, ∃ size addrs, fs'.inode j = { fs.inode j with size := size, addrs := addrs }

theorem Written.sameSlots {src : Nat → UInt8} {off n : Nat} (h : Written fs fs' i src off n) : SameSlots fs fs' := fun j => by
  by_cases hj : j = i
  · subst hj
    exact h.slot
  · exact ⟨_, _, h.slots j hj⟩

def Usable (fs : Fs) (i : InodeIdx) : Prop := fs.Locked i ∧ (fs.inode i).type.toNat ≠ T_DEV

theorem SameSlots.usable (h : SameSlots fs fs') (hu : fs.Usable i) : fs'.Usable i := by
  obtain ⟨size, addrs, heq⟩ := h i
  unfold Usable Locked
  rw [heq]
  exact hu

theorem SameSlots.inum (h : SameSlots fs fs') : (fun i => (fs'.inode i).inum) = fun i => (fs.inode i).inum := by
  funext i
  obtain ⟨size, addrs, heq⟩ := h i
  rw [heq]

theorem io_refines (devsw : DevSw) (wf : fs.Wf) (a : Io) (hu : fs.Usable a.slot) (hfree : fs.needs a ≤ fs.free)
    (hroom : fs.Room log (fs.logs a)) : ∃ fs' log',
      fs.inTrans log (fs.io devsw a) = .ok ((specIo (fun i => (fs.inode i).inum) fs.img.contents a).1, fs', log') ∧ fs'.Wf ∧
      fs'.img.contents = (specIo (fun i => (fs.inode i).inum) fs.img.contents a).2 ∧ SameSlots fs fs' := by
  obtain ⟨hl, htype⟩ := hu
  have hlen := wf.length_contents hl
  cases a with
  | write i src off n =>
    dsimp only [Io.slot] at hl htype hlen
    unfold io specIo
    dsimp only
    rw [hlen]
    by_cases hrej : Rejects (fs.inode i).size.toNat off.toNat n.toNat
    · rw [writei_reject htype hrej, if_pos hrej]
      exact ⟨fs, log, inTrans_same _ log, wf, rfl, fun j => ⟨_, _, rfl⟩⟩
    · rw [needs, if_neg hrej] at hfree
      rw [logs, if_neg hrej] at hroom
      obtain ⟨fs', hrun, hw⟩ := writei_ok devsw wf hl htype src hrej hfree
      obtain ⟨S, hlogs, hcard⟩ := writei_logs wf hl htype hrej hrun
      rw [hrun, if_neg hrej]
      obtain ⟨log', hlog⟩ := inTrans_ok (r := ((n.toNat : Int), ([] : List UInt8))) rfl hlogs (hcard ▸ hroom)
      refine ⟨fs', log', hlog, hw.wf, ?_, hw.sameSlots⟩
      funext j
      by_cases hj : j = (fs.inode i).inum
      · subst hj
        dsimp only
        rw [hw.contents, update_self]
        simp [splice]
      · dsimp only
        rw [(hw.others j hj).2, Function.update_of_ne hj]
  | read i off n =>
    dsimp only [Io.slot] at hl htype hlen
    unfold io specIo
    dsimp only
    rw [hlen, readi_eq wf hl htype]
    split
    · exact ⟨fs, log, inTrans_same _ log, wf, rfl, fun j => ⟨_, _, rfl⟩⟩
    · exact ⟨fs, log, inTrans_same _ log, wf, rfl, fun j => ⟨_, _, rfl⟩⟩

theorem ios_refines : ∀ (as : List (Trans × Io)) (fs : Fs), fs.Wf → (∀ a ∈ as, fs.Usable a.2.slot) → fs.Enough devsw as →
    ∃ fs', fs.ios devsw as = .ok ((specIos (fun i => (fs.inode i).inum) fs.img.contents (as.map Prod.snd)).1, fs') ∧ fs'.Wf ∧
      fs'.img.contents = (specIos (fun i => (fs.inode i).inum) fs.img.contents (as.map Prod.snd)).2
  | [], fs, wf, _, _ => ⟨fs, rfl, wf, rfl⟩
  | (log, a) :: as, fs, wf, hu, henough => by
    obtain ⟨hfree, hroom, henough⟩ := henough
    obtain ⟨fs₁, log₁, hrun, wf₁, hcont, hsame⟩ := io_refines devsw wf a (hu (log, a) List.mem_cons_self) hfree hroom
    obtain ⟨fs', hruns, wf', hconts⟩ := ios_refines as fs₁ wf₁
      (fun b hb => hsame.usable (hu b (List.mem_cons_of_mem _ hb))) (henough _ _ _ hrun)
    rw [hsame.inum, hcont] at hruns hconts
    refine ⟨fs', ?_, wf', hconts⟩
    rw [ios, hrun, ok_bind]
    dsimp only
    rw [hruns]
    rfl

def newFile : Outcome Fs :=
  runList (Fs.step ⟨fun _ => none, fun _ => none⟩) blank [.ialloc 2, .ilock 0]

/-- The bitmap is one block. -/
theorem writeBlocks_le (hsize : fs.sb.size ≤ BPB) (i : InodeIdx) (off n : Nat) : fs.writeBlocks i off n ≤ (span off n).card + 3 := by
  have hbitmap : ((firstFree fs.sb.size fs.img.used (fs.img.lacking (fs.inode i).inum (blocks (off + n)))).image
      fs.sb.bblock).card ≤ 1 := by
    refine Finset.card_le_one_iff_subset_singleton.mpr ⟨fs.sb.bblock 0, fun b hb => ?_⟩
    obtain ⟨c, hc, rfl⟩ := Finset.mem_image.mp hb
    have hlt := Finset.mem_range.mp (Finset.mem_filter.mp hc).1
    rw [Finset.mem_singleton, Superblock.bblock, Superblock.bblock, Nat.div_eq_of_lt (hlt.trans_le hsize), Nat.zero_div]
  unfold writeBlocks
  split <;> split <;> omega

end Fs
end Xv6
