import Xv6.Theorems.FsTrunc

/-! Every call keeps the file system in order: each used block has one owner, in every state that any sequence of
    calls reaches. -/

namespace Xv6
open Bytes Ownership
open Function (update_of_ne)
open Outcome (ok_bind)
open Machine

namespace Fs
variable {fs fs' : Fs} {i : InodeIdx} {devsw : DevSw}

/-! ### `iget` and `ialloc` -/

/-- The slot that `iget` returns was in use for the inode, or free. -/
inductive Got (fs : Fs) (dev inum : Nat) : InodeIdx × Fs → Prop
  | hit (i : InodeIdx) (hpos : 0 < (fs.inode i).ref) (hdev : (fs.inode i).dev = dev) (hinum : (fs.inode i).inum = inum) :
      Got fs dev inum (i, fs.setInode i { fs.inode i with ref := (fs.inode i).ref + 1 })
  | fresh (i : InodeIdx) (hfree : (fs.inode i).ref = 0)
      (hnone : ∀ j, 0 < (fs.inode j).ref → (fs.inode j).dev = dev → (fs.inode j).inum ≠ inum) :
      Got fs dev inum
        (i, fs.setInode i { fs.inode i with dev := dev, inum := inum, ref := 1, busy := false, valid := false })

theorem iget_spec (fs : Fs) (dev inum : Nat) :
    (fs.iget dev inum).Spec (Got fs dev inum) fun o => o = some "iget: no inodes" := by
  unfold iget
  dsimp only
  split
  · rename_i i hfind
    have hhit := List.find?_some hfind
    simp only [decide_eq_true_eq] at hhit
    exact .hit i hhit.1 hhit.2.1 hhit.2.2
  · rename_i hfind
    split
    · rename_i i hfind'
      refine .fresh i (by simpa using List.find?_some hfind') fun j hj hdev hinum => ?_
      have := List.find?_eq_none.mp hfind j (List.mem_finRange j)
      exact this (decide_eq_true ⟨hj, hdev, hinum⟩)
    · rfl

theorem Got.adds {inum : Nat} {r : InodeIdx × Fs} (wf : fs.Wf) (hinum : inum < fs.sb.ninodes) (h : Got fs ROOTDEV inum r) :
    Adds fs r.2 := by
  cases h with
  | hit i hpos _ _ => exact ⟨wf.setSlot hpos rfl rfl (wf.synced i hpos), rfl, fun _ _ => rfl⟩
  | fresh i hfree hnone =>
    refine ⟨wf.setInode (fun _ => ⟨rfl, hinum⟩) (fun _ hv => nomatch hv) fun _ j _ hj => ?_, rfl, fun _ _ => rfl⟩
    exact hnone j hj (wf.slot j hj).1

theorem Got.slot {dev inum : Nat} {r : InodeIdx × Fs} (h : Got fs dev inum r) :
    (r.2.inode r.1).inum = inum ∧ 0 < (r.2.inode r.1).ref ∧
    ∀ j, 0 < (fs.inode j).ref → 0 < (r.2.inode j).ref ∧ r.2.inode j = { fs.inode j with ref := (r.2.inode j).ref } := by
  cases h with
  | hit i hpos hdev hinum =>
    rw [inode_setInode_self]
    refine ⟨hinum, Nat.succ_pos _, fun j hj => ?_⟩
    by_cases hji : j = i
    · subst hji
      rw [inode_setInode_self]
      exact ⟨Nat.succ_pos _, rfl⟩
    · rw [inode_setInode_of_ne fs hji]
      exact ⟨hj, rfl⟩
  | fresh i hfree hnone =>
    rw [inode_setInode_self]
    refine ⟨rfl, Nat.one_pos, fun j hj => ?_⟩
    have hji : j ≠ i := by
      rintro rfl
      omega
    rw [inode_setInode_of_ne fs hji]
    exact ⟨hj, rfl⟩

theorem Wf.newInode {inum : Nat} (wf : fs.Wf) (hinum : inum < fs.sb.ninodes) (hfree : (fs.img.ino inum).type = 0)
    {d : Dinode} (hsize : d.size = 0) (haddrs : ∀ k, d.addrs k = 0) {x : Block} (hx : x = fs.blk (fs.sb.iblock inum)) :
    Adds fs (fs.logWrite (fs.sb.iblock inum) (writeDinode x inum d)) := by
  subst hx
  have hib := wf.super.ok.iblock_lt hinum
  have himg : (fs.logWrite (fs.sb.iblock inum) (writeDinode (fs.blk (fs.sb.iblock inum)) inum d)).img =
      fs.img.setIno inum d := imgOf_writeDinode wf.super.ok hinum d
  generalize hfs₁ : fs.logWrite (fs.sb.iblock inum) (writeDinode (fs.blk (fs.sb.iblock inum)) inum d) = fs₁ at himg
  have hsuper : fs₁.Super := hfs₁ ▸ wf.super.logWrite (by omega) _
  have hsb : fs₁.sb = fs.sb := hfs₁ ▸ rfl
  have hinode : fs₁.inode = fs.inode := hfs₁ ▸ rfl
  have hptr : ∀ p, fs₁.img.ptr p = fs.img.ptr p := fun p => by
    rw [himg]
    by_cases hp : p.inum = inum
    · rw [Img.ptr_setIno_empty haddrs hp, Img.ptr_free hfree hp]
    · exact Img.ptr_setIno_of_ne hp
  refine ⟨wf.replace (m := inum) hsuper hsb (fun j => Or.inl (by rw [hinode])) ?_ (fun j hj => ?_) (fun p _ => hptr p)
    (fun _ _ => ⟨?_, fun bn hbn => ?_⟩) fun j hj hjm hv => ?_, hsb, fun p _ => hptr p⟩
  · unfold Img.Owned
    rw [hsb, funext hptr, himg]
    exact wf.owned
  · rw [himg]
    exact update_of_ne hj _ _
  · rw [himg, Img.ino_setIno_self, hsize]
    exact Nat.zero_le _
  · rw [himg, Img.ino_setIno_self, hsize] at hbn
    exact absurd hbn (Nat.not_lt_zero _)
  · rw [hinode] at hj hjm hv
    obtain ⟨hsync, htype⟩ := wf.synced j hj hv
    rw [hjm] at hsync
    exact absurd (hsync ▸ hfree) htype

/-- `ialloc` returns an inode that was free. -/
def Fresh (fs : Fs) (r : InodeIdx × Fs) : Prop :=
  ∃ m fs₁, fs₁.inode = fs.inode ∧ (fs.img.ino m).type = 0 ∧ Got fs₁ ROOTDEV m r

theorem iallocFrom_spec (wf : fs.Wf) (type : UInt16) : ∀ left : Nat, left < fs.sb.ninodes →
    (fs.iallocFrom ROOTDEV type left).Spec (fun r => Adds fs r.2 ∧ Fresh fs r)
      fun o => o = some "ialloc: no inodes" ∨ o = some "iget: no inodes"
  | 0, _ => Or.inl rfl
  | left + 1, hleft => by
    have hinum : fs.sb.ninodes - (left + 1) < fs.sb.ninodes := by omega
    have hib := wf.super.ok.iblock_lt hinum
    have hbm := wf.super.ok.bmapstart_lt
    have hfits := wf.super.ok.fits
    rw [iallocFrom]
    rw [wf.super.bread (by omega), ok_bind]
    have hino : fs.img.ino (fs.sb.ninodes - (left + 1)) =
        readDinode (fs.blk (fs.sb.iblock (fs.sb.ninodes - (left + 1)))) (fs.sb.ninodes - (left + 1)) := if_pos hinum
    split
    · rename_i hfree
      rw [← hino] at hfree
      have hnew := wf.newInode hinum hfree (d := { type := type }) rfl (fun _ => rfl) rfl
      exact (iget_spec _ ROOTDEV _).mono (fun r hr => ⟨hnew.trans (hr.adds hnew.wf hinum), _, fs.logWrite _ _, rfl, hfree, hr⟩)
        fun o ho => Or.inr ho
    · exact iallocFrom_spec wf type left (by omega)

theorem ialloc_spec (wf : fs.Wf) (type : UInt16) :
    (fs.ialloc ROOTDEV type).Spec (fun r => Adds fs r.2 ∧ Fresh fs r)
      fun o => o = some "ialloc: no inodes" ∨ o = some "iget: no inodes" := by
  by_cases hpos : 0 < fs.sb.ninodes
  · exact iallocFrom_spec wf type _ (by omega)
  · rw [ialloc, show fs.sb.ninodes - 1 = 0 by omega]
    exact Or.inl rfl

/-! ### Locks and links -/

theorem ilock_spec (wf : fs.Wf) (hpos : 0 < (fs.inode i).ref) :
    (fs.ilock i).Spec (fun fs' => Adds fs fs' ∧ fs'.Locked i ∧ (fs'.inode i).inum = (fs.inode i).inum ∧
      ∀ j, j ≠ i → fs'.inode j = fs.inode j) fun o => o = none ∨ o = some "ilock: no type" := by
  obtain ⟨hdev, hinum⟩ := wf.slot i hpos
  have hib := wf.super.ok.iblock_lt hinum
  have hbm := wf.super.ok.bmapstart_lt
  have hfits := wf.super.ok.fits
  rw [ilock, if_neg (by omega)]
  split
  · exact Or.inl rfl
  · split
    · rename_i hv
      refine ⟨⟨wf.setSlot hpos rfl rfl fun _ => wf.synced i hpos hv, rfl, fun _ _ => rfl⟩, ?_⟩
      rw [Locked, inode_setInode_self]
      exact ⟨⟨hpos, rfl, hv⟩, rfl, fun j hj => inode_setInode_of_ne fs hj _⟩
    · have hino : fs.img.ino (fs.inode i).inum = readDinode (fs.blk (fs.sb.iblock (fs.inode i).inum)) (fs.inode i).inum :=
        if_pos hinum
      rw [hdev, wf.super.bread (by omega), ok_bind]
      dsimp only
      split
      · exact Or.inr rfl
      · rename_i htype
        refine ⟨⟨wf.setSlot hpos hdev.symm rfl fun _ => ⟨hino, htype⟩, rfl, fun _ _ => rfl⟩, ?_⟩
        rw [Locked, inode_setInode_self]
        exact ⟨⟨hpos, rfl, rfl⟩, rfl, fun j hj => inode_setInode_of_ne fs hj _⟩

theorem setLinks_spec (wf : fs.Wf) (hl : fs.Locked i) (major minor nlink : UInt16) :
    ((fs.setInode i { fs.inode i with major := major, minor := minor, nlink := nlink }).iupdate i).Spec (fun fs' => Adds fs fs' ∧
      fs'.inode = Function.update fs.inode i { fs.inode i with major := major, minor := minor, nlink := nlink }) fun _ => False := by
  obtain ⟨hsync, htype⟩ := wf.synced i hl.1 hl.2.2
  obtain ⟨hdev, hinum⟩ := wf.slot i hl.1
  have hs₁ : (fs.setInode i { fs.inode i with major := major, minor := minor, nlink := nlink }).Super :=
    ⟨wf.super.ok, wf.super.block, wf.super.disk⟩
  obtain ⟨fs', hup, hs, himg, hmem⟩ := iupdate_ok (i := i) hs₁ (by simpa using hdev)
    (by rw [inode_setInode_self]; exact hinum)
  rw [inode_setInode_self] at himg
  replace himg : fs'.img = fs.img.setIno (fs.inode i).inum
    { (fs.inode i).toDinode with major := major, minor := minor, nlink := nlink } := himg
  have hptr : ∀ p, fs'.img.ptr p = fs.img.ptr p := fun p => by
    rw [himg]
    exact Img.ptr_setIno_same (by rw [hsync]) (by rw [hsync]) p
  rw [hup]
  refine ⟨⟨wf.replace (m := (fs.inode i).inum) hs hmem.sb (fun j => ?_) ?_ (fun j hj => ?_) (fun p _ => hptr p)
    (fun _ hdev => ⟨?_, fun bn hbn => ?_⟩) fun j hj hjm hv => ?_, hmem.sb, fun p _ => hptr p⟩, hmem.inode⟩
  · rw [hmem.inode]
    by_cases hji : j = i
    · subst hji
      rw [inode_setInode_self]
      exact Or.inr ⟨hl.1, rfl, rfl, rfl⟩
    · exact Or.inl (update_of_ne hji _ _)
  · unfold Img.Owned
    rw [hmem.sb, funext hptr, himg]
    exact wf.owned
  · rw [himg]
    exact update_of_ne hj _ _
  · rw [himg, Img.ino_setIno_self] at hdev ⊢
    exact wf.size_le hl hdev
  · rw [himg, Img.ino_setIno_self] at hdev hbn
    rw [hptr, ← wf.imgAt_eq hl]
    exact wf.alloc_old hl hdev hbn
  · rw [hmem.inode] at hj hjm hv ⊢
    obtain rfl : j = i := by
      by_contra hji
      simp only [Fs.setInode, update_of_ne hji] at hj hjm
      exact hji (wf.uniq j i hj hl.1 hjm)
    rw [himg, Img.ino_setIno_self, inode_setInode_self]
    exact ⟨rfl, htype⟩

/-! ### Reading and writing -/

theorem readi_same (devsw : DevSw) (wf : fs.Wf) (hl : fs.Locked i) (off n : UInt32) : ∃ r bs, fs.readi devsw i off n = .ok (r, bs, fs) := by
  by_cases htype : (fs.inode i).type.toNat = T_DEV
  · rw [readi, if_pos htype]
    split
    · exact ⟨_, _, rfl⟩
    · split <;> exact ⟨_, _, rfl⟩
  · rw [readi_eq wf hl htype]
    split <;> exact ⟨_, _, rfl⟩

theorem writei_adds (wf : fs.Wf) (hl : fs.Locked i) (src : Nat → UInt8) (off n : UInt32) :
    (fs.writei devsw i src off n).Spec (fun r => Adds fs r.2 ∧ ∀ j, j ≠ i → r.2.inode j = fs.inode j)
      fun o => o = some "balloc: out of blocks" := by
  refine writei_of_accept (P := fun fs' => Adds fs fs' ∧ ∀ j, j ≠ i → fs'.inode j = fs.inode j)
    ⟨.refl wf, fun _ _ => rfl⟩ fun htype hrej => ?_
  exact (writei_spec wf hl htype hrej).mono (fun r hr => ⟨hr.2.toAdds, hr.2.slots⟩) fun o ho => ho.1

/-! ### Directories -/

theorem dirlookupFrom_spec {dp : InodeIdx} (wf : fs.Wf) (hl : fs.Locked dp) (name : Nat → UInt8) : ∀ left off : Nat,
    (fs.dirlookupFrom devsw dp name left off).Spec
      (fun r => r.1 = none ∧ r.2 = fs ∨ ∃ i o inum, r.1 = some (i, o) ∧ Got fs (fs.inode dp).dev inum (i, r.2))
      fun o => o = some "dirlink read" ∨ o = some "iget: no inodes"
  | 0, _ => Or.inl ⟨rfl, rfl⟩
  | left + 1, off => by
    rw [dirlookupFrom]
    split
    · obtain ⟨r, de, hread⟩ := readi_same devsw wf hl (.ofNat off) (.ofNat DIRENT)
      rw [hread, ok_bind]
      dsimp only
      split
      · exact Or.inl rfl
      · split
        · refine Outcome.Spec.bind ((iget_spec _ _ _).mono (fun _ h => h) fun o ho => Or.inr ho) ?_
          rintro ⟨i, fs'⟩ hgot
          exact Or.inr ⟨i, off, _, rfl, hgot⟩
        · exact dirlookupFrom_spec wf hl name left _
    · exact Or.inl ⟨rfl, rfl⟩

theorem dirlinkFrom_spec {dp : InodeIdx} (wf : fs.Wf) (hl : fs.Locked dp) : ∀ left off : Nat,
    (fs.dirlinkFrom devsw dp left off).Spec (fun r => r.2 = fs) fun o => o = some "dirlink read"
  | 0, _ => rfl
  | left + 1, off => by
    rw [dirlinkFrom]
    split
    · obtain ⟨r, de, hread⟩ := readi_same devsw wf hl (.ofNat off) (.ofNat DIRENT)
      rw [hread, ok_bind]
      dsimp only
      split
      · rfl
      · split
        · rfl
        · exact dirlinkFrom_spec wf hl left _
    · rfl

/-- `iput` right after `iget` frees nothing, whatever the number of the inode: the slot has another reference, or
    its inode has not been read. -/
theorem Got.iput {dev inum : Nat} (wf : fs.Wf) (h : Got fs dev inum (i, fs')) :
    ∃ fs'', fs'.iput i = .ok fs'' ∧ Adds fs fs'' := by
  cases h with
  | hit _ hpos _ _ =>
    refine ⟨_, ?_, wf.setSlot hpos rfl rfl (wf.synced i hpos), rfl, fun _ _ => rfl⟩
    rw [Fs.iput, if_neg]
    · simp
    · simp only [inode_setInode_self]
      omega
  | fresh _ hfree _ =>
    have hwf : (fs.setInode i { fs.inode i with dev := dev, inum := inum, ref := 0, busy := false, valid := false }).Wf :=
      wf.setInode (fun h => by cases h) (fun h => by cases h) fun h => by cases h
    refine ⟨_, ?_, hwf, rfl, fun _ _ => rfl⟩
    rw [Fs.iput, if_neg]
    · simp
    · simp

theorem dirlink_spec {dp : InodeIdx} (wf : fs.Wf) (hl : fs.Locked dp) (name : Nat → UInt8) (inum : Nat) :
    (fs.dirlink devsw dp name inum).Spec (fun r => Adds fs r.2 ∧ (0 ≤ r.1 → ∀ j, j ≠ dp → r.2.inode j = fs.inode j))
      fun o => o ≠ some "freeing free block" := by
  rw [dirlink, dirlookup]
  split
  · simp
  · refine Outcome.Spec.bind ((dirlookupFrom_spec wf hl name _ 0).mono (fun _ h => h) ?_) ?_
    · rintro o (rfl | rfl) <;> simp
    · rintro ⟨found, fs₁⟩ (⟨rfl, rfl⟩ | ⟨i, o, m, rfl, hgot⟩)
      · refine Outcome.Spec.bind ((dirlinkFrom_spec wf hl _ 0).mono (fun _ h => h) ?_) ?_
        · rintro o rfl
          simp
        · rintro ⟨off, fs₂⟩ rfl
          refine Outcome.Spec.bind ((writei_adds wf hl _ _ _).mono (fun _ h => h) ?_) ?_
          · rintro o rfl
            simp
          · rintro ⟨r, fs₃⟩ hwrite
            dsimp only
            split
            · simp
            · exact ⟨hwrite.1, fun _ => hwrite.2⟩
      · obtain ⟨fs₂, hput, hadds⟩ := hgot.iput wf
        dsimp only
        rw [hput]
        exact ⟨hadds, fun h : (0 : Int) ≤ -1 => absurd h (by decide)⟩

/-! ### Runs -/

/-- A call keeps the file system in order, and never frees a block that is free. -/
theorem step_spec (wf : fs.Wf) (call : Call) :
    (fs.step devsw call).Spec (fun fs' => Adds fs fs' ∨ Drops fs fs') fun o => o ≠ some "freeing free block" := by
  cases call with
  | ialloc type =>
    refine Outcome.Spec.bind ((ialloc_spec wf type).mono (fun _ h => h) ?_) fun r hr => Or.inl hr.1
    rintro o (rfl | rfl) <;> simp
  | iget inum =>
    rw [step]
    split
    · rename_i hinum
      refine Outcome.Spec.bind ((iget_spec fs ROOTDEV inum).mono (fun _ h => h) ?_) fun r hr => Or.inl (hr.adds wf hinum)
      rintro o rfl
      simp
    · simp
  | idup i =>
    rw [step]
    split
    · rename_i hpos
      exact Or.inl ⟨wf.setSlot hpos rfl rfl (wf.synced i hpos), rfl, fun _ _ => rfl⟩
    · simp
  | ilock i =>
    rw [step]
    split
    · rename_i hpos
      refine (ilock_spec wf hpos).mono (fun fs' h => Or.inl h.1) ?_
      rintro o (rfl | rfl) <;> simp
    · simp
  | iunlock i =>
    rw [step]
    split
    · rename_i hl
      rw [iunlock, if_neg (by simp [hl.2.1, Nat.pos_iff_ne_zero.mp hl.1])]
      exact Or.inl ⟨wf.setSlot hl.1 rfl rfl (wf.synced i hl.1), rfl, fun _ _ => rfl⟩
    · simp
  | iput i =>
    rw [step]
    split
    · rename_i hpos
      refine (iput_spec wf hpos).mono (fun fs' h => Or.inr h.toDrops) ?_
      rintro o rfl
      simp
    · simp
  | setLinks i major minor nlink =>
    rw [step]
    split
    · rename_i hl
      exact (setLinks_spec wf hl major minor nlink).mono (fun fs' h => Or.inl h.1) fun o ho => ho.elim
    · simp
  | readi i off n =>
    rw [step]
    split
    · rename_i hl
      obtain ⟨r, bs, hread⟩ := readi_same devsw wf hl off n
      rw [hread]
      exact Or.inl (.refl wf)
    · simp
  | writei i src off n =>
    rw [step]
    split
    · rename_i hl
      refine Outcome.Spec.bind ((writei_adds wf hl src off n).mono (fun _ h => h) ?_) fun r hr => Or.inl hr.1
      rintro o rfl
      simp
    · simp
  | dirlink i name inum =>
    rw [step]
    split
    · rename_i hl
      exact Outcome.Spec.bind (dirlink_spec wf hl name inum) fun r hr => Or.inl hr.1
    · simp

/-- The states that calls lead to from a file system in order. -/
abbrev Reached (devsw : DevSw) : Fs → Prop := Reachable (Fs.step devsw) (fun _ _ => True) Wf

theorem Reached.wf (h : Reached devsw fs) : fs.Wf :=
  h.invariant (fun _ h => h) fun _ call _ wf _ hs => by
    rcases (step_spec wf call).of_eq_ok hs with hadds | hdrops
    · exact hadds.wf
    · exact hdrops.wf

theorem Wf.new_block (wf : fs.Wf) (h : Adds fs fs' ∨ Drops fs fs') {p : Place} (hp : fs'.img.ptr p ≠ 0)
    (hne : fs'.img.ptr p ≠ fs.img.ptr p) : fs.sb.nmeta ≤ fs'.img.ptr p ∧ fs.img.used (fs'.img.ptr p) = false := by
  rcases h with hadds | hdrops
  · obtain ⟨hlo, hlt⟩ := hadds.wf.owned.range p hp
    rw [hadds.sb] at hlo hlt
    refine ⟨hlo, Bool.eq_false_iff.mpr fun hused => ?_⟩
    rcases (wf.owned.used_iff _ hlt).mp hused with hmeta | ⟨q, hq, -⟩ | hmem
    · omega
    · -- The old owner would still have it.
      have hq' := hadds.kept q (by rw [hq]; exact hp)
      obtain rfl := hadds.wf.owned.inj q p (by rw [hq', hq]; exact hp) (hq'.trans hq)
      exact hne hq.symm
    · exact hmem
  · exact absurd (hdrops.ptr p hp) hne

/-- Blocks are owned, in every state that calls lead to: a block is marked as used iff it is a metadata block or
    some place names it, and then exactly one does. So `balloc` finds only blocks that nobody has, a call stores
    only such blocks at places, none panics on freeing a free block, and an inode that is freed leaves all its
    blocks free. -/
theorem block_ownership (h : Reached devsw fs) :
    (∀ b, b < fs.sb.size → (fs.img.used b = true ↔ b < fs.sb.nmeta ∨ ∃ p, fs.img.ptr p = b)) ∧
    (∀ p, fs.img.ptr p ≠ 0 → fs.sb.nmeta ≤ fs.img.ptr p ∧ fs.img.ptr p < fs.sb.size) ∧
    (∀ b, fs.sb.nmeta ≤ b → b < fs.sb.size → fs.img.used b = true → ∃! p, fs.img.ptr p = b) ∧
    (∀ i, 0 < (fs.inode i).ref → (fs.inode i).valid = true → fs.img.ino (fs.inode i).inum = (fs.inode i).toDinode) ∧
    (∀ b fs', fs.balloc ROOTDEV = .ok (b, fs') →
      fs.sb.nmeta ≤ b ∧ b < fs.sb.size ∧ fs.img.used b = false ∧ ∀ p, fs.img.ptr p ≠ b) ∧
    (∀ call fs', fs.step devsw call = .ok fs' → ∀ p, fs'.img.ptr p ≠ 0 → fs'.img.ptr p ≠ fs.img.ptr p →
      fs.sb.nmeta ≤ fs'.img.ptr p ∧ fs.img.used (fs'.img.ptr p) = false) ∧
    (∀ call, fs.step devsw call ≠ .panic "freeing free block") ∧
    (∀ i fs', LastPut (fs.inode i) → fs.step devsw (.iput i) = .ok fs' →
      (fs'.img.ino (fs.inode i).inum).type = 0 ∧
      ∀ p : Place, p.inum = (fs.inode i).inum → fs.img.ptr p ≠ 0 → fs'.img.used (fs.img.ptr p) = false) := by
  have wf := h.wf
  have hpos := fs.sb.nmeta_pos
  have hused : ∀ b, b < fs.sb.size → (fs.img.used b = true ↔ b < fs.sb.nmeta ∨ ∃ p, fs.img.ptr p = b) := fun b hb => by
    rw [wf.owned.used_iff b hb]
    constructor
    · rintro (hmeta | ⟨p, hp, -⟩ | hmem)
      · exact Or.inl hmeta
      · exact Or.inr ⟨p, hp⟩
      · exact hmem.elim
    · rintro (hmeta | ⟨p, hp⟩)
      · exact Or.inl hmeta
      · by_cases hb0 : b = 0
        · exact Or.inl (by omega)
        · exact Or.inr (Or.inl ⟨p, hp, hb0⟩)
  refine ⟨hused, wf.owned.range, fun b hlo hlt hb => ?_, fun i hi hv => (wf.synced i hi hv).1, fun b fs' hballoc => ?_,
    fun call fs' hs p hp hne => wf.new_block ((step_spec wf call).of_eq_ok hs) hp hne,
    fun call => (step_spec wf call).ne_panic fun hne => hne rfl, fun i fs' hlast hs => ?_⟩
  · obtain hmeta | ⟨p, hp⟩ := (hused b hlt).mp hb
    · omega
    · exact ⟨p, hp, fun q hq => wf.owned.inj q p (by omega) (hq.trans hp.symm)⟩
  · have hmeta : ∀ c < fs.sb.nmeta, fs.img.used c = true := fun c hc =>
      (hused c (lt_of_lt_of_le hc wf.super.ok.fits)).mpr (Or.inl hc)
    have htaken := (balloc_spec wf.super hmeta).of_eq_ok hballoc
    obtain ⟨hlo, hptr, -⟩ := wf.owned.not_used htaken.lt htaken.free
    refine ⟨hlo, htaken.lt, htaken.free, fun p hp => ?_⟩
    have hlo' : fs.sb.nmeta ≤ b := hlo
    exact hptr p (by omega) hp
  · have href : 0 < (fs.inode i).ref := by rw [hlast.1]; exact Nat.one_pos
    rw [step, if_pos href] at hs
    exact ((iput_spec wf href).of_eq_ok hs).freed hlast

/-! ### An empty disk -/

def blankSb : Superblock where
  size := FSSIZE
  nblocks := 941
  ninodes := 200
  nlog := LOGSIZE
  logstart := 2
  inodestart := 32
  bmapstart := 58

/-- A disk on which all inodes are free and the bits of the 59 metadata blocks are set. -/
def blank : Fs where
  blk b :=
    if b = 1 then Buffer.setWords 4 .zero 0 [FSSIZE, 941, 200, LOGSIZE, 2, 32, 58]
    else if b = 58 then Buffer.setBytes .zero 0 [255, 255, 255, 255, 255, 255, 255, 7]
    else .zero
  disksize := FSSIZE
  sb := blankSb
  inode _ := { type := 0, dev := 0, inum := 0, ref := 0, busy := false, valid := false }

theorem blank_free (j : Nat) : (blank.img.ino j).type = 0 := by
  show ((if j < 200 then readDinode (blank.blk (blankSb.iblock j)) j else _) : Dinode).type = 0
  split
  · rename_i hj
    have hblk : blank.blk (blankSb.iblock j) = .zero := by
      have hlt : j / 8 < 25 := by omega
      have hib : blankSb.iblock j = j / 8 + 32 := rfl
      rw [hib]
      unfold blank
      dsimp only
      rw [if_neg (by omega), if_neg (by omega)]
    rw [hblk, readDinode]
    show UInt16.ofNat _ = 0
    rw [Buffer.word_zero]
    rfl
  · rfl

theorem blank_used : ∀ b < FSSIZE, blank.img.used b = decide (b < 59) := by decide +kernel

theorem blank_wf : blank.Wf where
  super := ⟨⟨rfl, rfl, rfl, by decide, by decide⟩, by decide +kernel, le_refl _⟩
  owned := by
    have hptr : ∀ p, blank.img.ptr p = 0 := fun p => Img.ptr_free (blank_free _) rfl
    refine ⟨fun p hp => absurd (hptr p) hp, fun p q hp => absurd (hptr p) hp, fun b hb => hb.elim,
      fun p hp => absurd (hptr p) hp, fun b hb => ?_⟩
    rw [blank_used b hb, decide_eq_true_eq]
    refine ⟨Or.inl, ?_⟩
    rintro (hlt | ⟨p, hp, hb0⟩ | hmem)
    · exact hlt
    · exact absurd (hp.symm.trans (hptr p)) hb0
    · exact hmem.elim
  noHole := fun j hj => absurd (blank_free j) hj
  slot := fun i hi => absurd hi (Nat.lt_irrefl 0)
  synced := fun i hi => absurd hi (Nat.lt_irrefl 0)
  uniq := fun i j hi => absurd hi (Nat.lt_irrefl 0)

/-- A new file of 14 blocks, which it owns through an inode and an indirect block; nothing links to it. -/
def bigFile : Outcome Fs :=
  runList (Fs.step ⟨fun _ => none, fun _ => none⟩) blank
    [.ialloc 2, .ilock 0, .writei 0 (fun _ => 7) 0 7000, .iunlock 0]

/-- When the file is closed its last block is free again. -/
theorem block_ownership_bigFile : ∃ fs fs', Reached ⟨fun _ => none, fun _ => none⟩ fs ∧ fs.img.ptr (.entry 1 1) = 73 ∧
    fs.img.used 73 = true ∧ fs.step ⟨fun _ => none, fun _ => none⟩ (.iput 0) = .ok fs' ∧ fs'.img.used 73 = false := by
  obtain ⟨fs, hrun, hlast, hinum, hptr, fs', hput⟩ : ∃ fs, bigFile = .ok fs ∧
      ((fs.inode 0).ref = 1 ∧ (fs.inode 0).valid = true ∧ (fs.inode 0).nlink = 0) ∧ (fs.inode 0).inum = 1 ∧
      fs.img.ptr (.entry 1 1) = 73 ∧ ∃ fs', fs.step ⟨fun _ => none, fun _ => none⟩ (.iput 0) = .ok fs' := by
    decide +kernel
  have hr : Reached ⟨fun _ => none, fun _ => none⟩ fs :=
    Reachable.runList (fun _ _ => trivial) (.init blank_wf) hrun
  obtain ⟨hused, hrange, -, -, -, -, -, hfreed⟩ := block_ownership hr
  have hne : fs.img.ptr (.entry 1 1) ≠ 0 := by rw [hptr]; decide
  have hlt := (hrange _ hne).2
  have hfree := (hfreed 0 fs' hlast hput).2 (.entry 1 1) hinum.symm hne
  rw [hptr] at hlt hfree
  exact ⟨fs, fs', hr, hptr, (hused 73 hlt).mpr (Or.inr ⟨_, hptr⟩), hput, hfree⟩

end Fs
end Xv6
