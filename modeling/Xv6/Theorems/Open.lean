import Xv6.Theorems.Paths
import Xv6.Sysfile

/-! When `open` fails. It gives back the inode and the file that it had got; what it does not take back is a file that it
    has just created. -/

namespace Xv6
open Outcome (ensures_true ok_bind)

/-- Slot `ip` is locked for an inode that was free and has a link now. -/
structure Fs.New (fs fs' : Fs) (ip : InodeIdx) : Prop where
  wf : fs'.Wf
  sb : fs'.sb = fs.sb
  locked : fs'.Locked ip
  nlink : (fs'.inode ip).nlink ≠ 0
  free : (fs.img.ino (fs'.inode ip).inum).type = 0

theorem Fs.createIn_new {fs : Fs} {devsw : DevSw} {dp : InodeIdx} (wf : fs.Wf) (hl : fs.Locked dp) (name : List UInt8)
    (major minor : UInt16) : (fs.createIn devsw dp name (.ofNat T_FILE) major minor).Ensures fun r => Fs.New fs r.2 r.1 := by
  rw [createIn, (wf.slot dp hl.1).1]
  refine (ialloc_spec wf _).ensures.bind ?_
  rintro ⟨ip, fs₁⟩ ⟨h₁, m, fs', hinode, hfree, hgot⟩
  obtain ⟨hinum, hpos, hslot⟩ := hgot.slot
  obtain ⟨hdp, hdp₁⟩ := hslot dp (by rw [hinode]; exact hl.1)
  rw [hinode] at hdp₁
  have hne : ip ≠ dp := by
    rintro rfl
    rw [hdp₁] at hinum
    obtain ⟨hsync, htype⟩ := wf.synced ip hl.1 hl.2.2
    subst hinum
    rw [hsync] at hfree
    exact htype hfree
  refine (ilock_spec h₁.wf hpos).ensures.bind fun fs₂ ⟨h₂, hl₂, hinum₂, hother₂⟩ => ?_
  refine (setLinks_spec h₂.wf hl₂ major minor 1).ensures.bind fun fs₃ ⟨h₃, hinode₃⟩ => ?_
  have hdp₃ : fs₃.Locked dp := by
    rw [Locked, hinode₃, Function.update_of_ne hne.symm, hother₂ dp hne.symm, hdp₁]
    exact ⟨hdp, hl.2⟩
  rw [createDots, if_neg (by decide), ok_bind]
  refine (dirlink_spec h₃.wf hdp₃ _ _).ensures.bind ?_
  rintro ⟨r, fs₄⟩ ⟨h₄, hother₄⟩
  dsimp only
  split
  · trivial
  rename_i hr
  have hip : fs₄.inode ip = { fs₂.inode ip with major := major, minor := minor, nlink := 1 } := by
    rw [hother₄ (by omega) ip hne, hinode₃, Function.update_self]
  rw [iunlockput, iunlock]
  split
  · trivial
  rename_i hbusy
  have href : 0 < (fs₄.inode dp).ref := by omega
  have hunlocked : (fs₄.setInode dp { fs₄.inode dp with busy := false }).Wf := h₄.wf.setSlot href rfl rfl (h₄.wf.synced dp href)
  rw [ok_bind]
  refine ((iput_spec hunlocked (by rw [inode_setInode_self]; exact href)).ensures.and (iput_yields _ dp).ensures).bind ?_
  rintro fs₅ ⟨hput, fs₆, x, hsame, rfl, -, -⟩
  obtain ⟨_, _, _, hslot₆⟩ := hsame ip
  rw [inode_setInode_of_ne fs₄ hne, hip, ← inode_setInode_of_ne fs₆ hne x] at hslot₆
  refine ⟨hput.wf, ?_, ?_, ?_, ?_⟩
  · exact hput.sb.trans (h₄.sb.trans (h₃.sb.trans (h₂.sb.trans h₁.sb)))
  · rw [Locked, hslot₆]
    exact hl₂
  · rw [hslot₆]
    exact (by decide : (1 : UInt16) ≠ 0)
  · rw [hslot₆]
    show (fs.img.ino (fs₂.inode ip).inum).type = 0
    rw [hinum₂, hinum]
    exact hfree

theorem Fs.New.iunlockput {fs fs' : Fs} {ip : InodeIdx} (h : Fs.New fs fs' ip) :
    (fs'.iunlockput ip).Ensures fun fs'' => fs''.blk ≠ fs.blk := by
  rw [Fs.iunlockput, h.locked.iunlock, ok_bind, iput_eq fun hlast => h.nlink (by simpa using hlast.2.2)]
  intro (hblk : fs'.blk = fs.blk)
  obtain ⟨hsync, htype⟩ := h.wf.synced ip h.locked.1 h.locked.2.2
  have himg : fs'.img = fs.img := by rw [Fs.img, Fs.img, hblk, h.sb]
  rw [himg] at hsync
  exact htype (hsync ▸ h.free)

/-- The directory of the path is there, and has no file of the name. -/
def Fs.Lacks (fs : Fs) (cwd : Option InodeIdx) (path : List UInt8) : Prop :=
  fs.img.parent (fs.startInum cwd path) (components path) ≠ none ∧ fs.img.walk (fs.startInum cwd path) (components path) = none

/-- `create` makes a new file in a directory that lacks it, or finds the one that is there. -/
theorem Fs.Still.create {fs : Fs} {devsw : DevSw} {cwd : Option InodeIdx} {path : List UInt8} {major minor : UInt16}
    (st : fs.Still) (hnul : (0 : UInt8) ∉ path) (hcwd : path.head? ≠ some SLASH → ∃ i, cwd = some i ∧ 0 < (fs.inode i).ref) :
    (fs.create devsw cwd path (.ofNat T_FILE) major minor).Ensures fun r =>
      match r.1 with
      | none => Fs.Walks fs r.2 [] [] ∧ ¬fs.Lacks cwd path
      | some ip => (Fs.Walks fs r.2 [ip] [ip] ∧ r.2.Locked ip ∧ fs.Anchored (r.2.inode ip).inum) ∧ ¬fs.Lacks cwd path ∨
        Fs.New fs r.2 ip ∧ fs.Lacks cwd path := by
  rw [Fs.create]
  refine Outcome.Ensures.bind (@Fs.Still.namex fs devsw true cwd path st hnul hcwd).ensures ?_
  rintro ⟨_ | dp, name, fs'⟩ hres
  all_goals
    have hinum := hres.inum
    rw [if_pos rfl] at hinum
  · exact ⟨hres.walks, fun h => h.1 hinum.symm⟩
  · obtain ⟨fs₁, hlock, w₁, hl, ha, hwalk, hlook⟩ := hres.lookup devsw st hnul
    dsimp only
    rw [hlock, ok_bind]
    refine hlook.ensures.bind ?_
    intro r hr
    cases hr with
    | none hget =>
      refine (Fs.createIn_new w₁.wf hl name major minor).bind fun r hnew => .inr
        ⟨{ hnew with sb := hnew.sb.trans w₁.sb, free := w₁.img ▸ hnew.free }, ?_, hwalk.trans hget⟩
      rw [← hinum]
      exact Option.some_ne_none _
    | @some ip off fs₂ hget ha₂ w₂ hl₂ hinum₂ =>
      have hfound : ¬fs.Lacks cwd path := fun h => Option.some_ne_none _ (hget.symm.trans (hwalk.symm.trans h.2))
      obtain ⟨fs₃, hput, w₃, hinum₃⟩ := w₂.iunlockput hl₂ (hinum₂ ▸ ha)
      rw [← hinum₃ ip] at ha₂
      obtain ⟨fs₄, hlock', w₄, hl₄, hinum₄⟩ := w₃.ilock List.mem_cons_self (w₃.not_busy st List.not_mem_nil) ha₂.2.1
      rw [← hinum₄ ip] at ha₂
      dsimp only
      rw [hput, ok_bind, hlock', ok_bind]
      split
      · exact .inl ⟨⟨w₄, hl₄, ha₂⟩, hfound⟩
      · obtain ⟨fs₅, hput', w₅, -⟩ := w₄.iunlockput hl₄ ha₂
        rw [hput']
        exact ⟨w₅, hfound⟩

namespace Os
variable {os : Os} {p : ProcIdx} {ip : InodeIdx} {f : Nat} {omode : UInt32} {devsw : DevSw} {fs : Fs}

/-- Neither the disk nor any table has changed. -/
structure Undone (os os' : Os) : Prop where
  blk : os'.fs.blk = os.fs.blk
  ref : ∀ i, (os'.fs.inode i).ref = (os.fs.inode i).ref
  file : os'.file = os.file
  proc : os'.proc = os.proc

theorem Undone.of_walks {os' : Os} (w : Fs.Walks os.fs os'.fs [] []) (hfile : os'.file = os.file) (hproc : os'.proc = os.proc) :
    Undone os os' := ⟨w.blk, w.ref, hfile, hproc⟩

theorem filealloc_cases (os : Os) : (os.filealloc = (none, os) ∧ ∀ f < NFILE, (os.file f).ref ≠ 0) ∨
    ∃ f, (os.file f).ref = 0 ∧ os.filealloc = (some f, os.setFile f { os.file f with ref := 1 }) := by
  rw [filealloc]
  cases hfind : (List.range NFILE).find? fun f => (os.file f).ref == 0 with
  | none => exact .inl ⟨rfl, by simpa using hfind⟩
  | some f => exact .inr ⟨f, by simpa using List.find?_some hfind, rfl⟩

theorem fdalloc_cases (os : Os) (p : ProcIdx) (f : Nat) :
    (os.fdalloc p f = (none, os) ∧ ∀ fd, (os.proc p).ofile fd ≠ none) ∨
    ∃ fd, os.fdalloc p f = (some fd, os.setFd p fd (some f)) := by
  rw [fdalloc]
  cases hfind : (List.finRange NOFILE).find? fun fd => ((os.proc p).ofile fd).isNone with
  | none => exact .inl ⟨rfl, by simpa using hfind⟩
  | some fd => exact .inr ⟨fd, rfl⟩

theorem fileclose_filealloc (href : (os.file f).ref = 0) (htype : (os.file f).type = .none) :
    (os.setFile f { os.file f with ref := 1 }).fileclose f = .ok os := by
  have hfile : { os.file f with ref := 0, type := .none } = os.file f := by
    rw [← href, ← htype]
  simp only [fileclose, setFile, Function.update_self, htype, Function.update_idem, Nat.lt_irrefl, if_false, Nat.sub_self]
  rw [hfile, Function.update_eq_self]

theorem openFile_ok (hfile : ∃ f < NFILE, (os.file f).ref = 0) (hfd : ∃ fd, (os.proc p).ofile fd = none) :
    (os.openFile p ip omode).Ensures fun r => r.1 ≠ -1 := by
  rw [openFile]
  rcases os.filealloc_cases with ⟨-, hfull⟩ | ⟨f, -, halloc⟩
  · obtain ⟨f, hf, href⟩ := hfile
    exact absurd href (hfull f hf)
  · rw [halloc]
    dsimp only
    rcases fdalloc_cases (os.setFile f { os.file f with ref := 1 }) p f with ⟨-, hfull⟩ | ⟨fd, halloc'⟩
    · obtain ⟨fd, hfd⟩ := hfd
      exact absurd hfd (hfull fd)
    · rw [halloc']
      refine (ensures_true _).bind fun fs _ => ?_
      exact fun h : (fd.val : Int) = -1 => by omega

/-- When no file or no descriptor is left, the inode is given back, and nothing else has changed. -/
theorem openFile_failed {P : Os → Prop} (hunused : ∀ f, (os.file f).ref = 0 → (os.file f).type = .none)
    (hput : (os.fs.iunlockput ip).Ensures fun fs => P (os.setFs fs).endOp) :
    (os.openFile p ip omode).Ensures fun r => r.1 = -1 → P r.2 := by
  rw [openFile]
  rcases os.filealloc_cases with ⟨halloc, -⟩ | ⟨f, href, halloc⟩
  · rw [halloc]
    exact hput.bind fun _ h _ => h
  · rw [halloc]
    dsimp only
    rcases fdalloc_cases (os.setFile f { os.file f with ref := 1 }) p f with ⟨halloc', -⟩ | ⟨fd, halloc'⟩
    · rw [halloc']
      dsimp only
      rw [fileclose_filealloc href (hunused f href), ok_bind]
      exact hput.bind fun _ h _ => h
    · rw [halloc']
      refine (ensures_true _).bind fun fs _ => ?_
      exact fun h : (fd.val : Int) = -1 => by omega

/-- With `O_CREATE` the call makes a new file: the directory is there, and has no file of the name. -/
def Creates (os : Os) (p : ProcIdx) (path : List UInt8) (omode : UInt32) : Prop :=
  let k := os.fs.startInum (os.proc p).cwd path
  omode &&& O_CREATE ≠ 0 ∧ os.fs.img.parent k (components path) ≠ none ∧ os.fs.img.walk k (components path) = none

section Fails
variable {path : List UInt8} (st : os.fs.Still) (hunused : ∀ f, (os.file f).ref = 0 → (os.file f).type = .none)
  (hcwd : ∃ i, (os.proc p).cwd = some i ∧ 0 < (os.fs.inode i).ref)
include st hunused hcwd

theorem sysOpen_creates (hnul : (0 : UInt8) ∉ path) (hc : Creates os p path omode) :
    (os.sysOpen devsw p (some path) omode).Ensures fun r => r.1 = -1 → r.2.fs.blk ≠ os.fs.blk ∧
      ¬((∃ f < NFILE, (os.file f).ref = 0) ∧ ∃ fd, (os.proc p).ofile fd = none) := by
  rw [sysOpen]
  dsimp only
  rw [if_pos hc.1]
  refine (st.create hnul fun _ => hcwd).bind ?_
  rintro ⟨_ | ip, fs⟩ hr
  · exact absurd hc.2 hr.2
  · obtain ⟨hnew, -⟩ := hr.resolve_left fun h => h.2 hc.2
    by_cases hroom : (∃ f < NFILE, (os.file f).ref = 0) ∧ ∃ fd, (os.proc p).ofile fd = none
    · exact (@openFile_ok (os.beginOp.setFs fs) p ip omode hroom.1 hroom.2).mono fun r hne h => absurd h hne
    · exact (@openFile_failed (os.beginOp.setFs fs) p ip omode (fun os' => os'.fs.blk ≠ os.fs.blk) hunused
        hnew.iunlockput).mono fun r hr h => ⟨hr h, hroom⟩

theorem sysOpen_undone (hnul : (0 : UInt8) ∉ path) (hc : ¬Creates os p path omode) :
    (os.sysOpen devsw p (some path) omode).Ensures fun r => r.1 = -1 → Undone os r.2 := by
  rw [sysOpen]
  have hopen : ∀ {ip fs}, Fs.Walks os.fs fs [ip] [ip] → fs.Locked ip → os.fs.Anchored (fs.inode ip).inum →
      ((os.beginOp.setFs fs).openFile p ip omode).Ensures fun r => r.1 = -1 → Undone os r.2 := fun {ip fs} w hl ha => by
    obtain ⟨fs', hput, w', -⟩ := w.iunlockput hl ha
    refine openFile_failed hunused ?_
    show (fs.iunlockput ip).Ensures _
    rw [hput]
    exact .of_walks w' rfl rfl
  dsimp only
  by_cases hcreate : omode &&& O_CREATE ≠ 0
  · rw [if_pos hcreate]
    refine (st.create hnul fun _ => hcwd).bind ?_
    rintro ⟨_ | ip, fs⟩ hr
    · exact fun _ => .of_walks hr.1 rfl rfl
    · obtain ⟨⟨w, hl, ha⟩, -⟩ := hr.resolve_right fun h => hc ⟨hcreate, h.2⟩
      exact hopen w hl ha
  · rw [if_neg hcreate]
    refine Outcome.Ensures.bind (st.namei hnul fun _ => hcwd).ensures ?_
    rintro ⟨_ | ip, fs⟩ hres
    · exact fun _ => .of_walks hres.walks rfl rfl
    · have ha := hres.anchored ip rfl
      obtain ⟨fs₁, hlock, w₁, hl, hinum₁⟩ :=
        hres.walks.ilock List.mem_cons_self (hres.walks.not_busy st List.not_mem_nil) ha.2.1
      rw [← hinum₁ ip] at ha
      dsimp only at hlock ⊢
      rw [hlock, ok_bind]
      split
      · obtain ⟨fs₂, hput, w₂, -⟩ := w₁.iunlockput hl ha
        rw [hput]
        exact fun _ => .of_walks w₂ rfl rfl
      · exact hopen w₁ hl ha

/-- An `open` that fails changes nothing exactly if it creates no file, or there are a file and a descriptor for it. -/
theorem open_fails {path : Option (List UInt8)} {os' : Os} (hnul : ∀ s ∈ path, (0 : UInt8) ∉ s)
    (h : os.sysOpen devsw p path omode = .ok (-1, os')) : Undone os os' ↔
      (∀ s ∈ path, ¬Creates os p s omode) ∨ (∃ f < NFILE, (os.file f).ref = 0) ∧ ∃ fd, (os.proc p).ofile fd = none := by
  cases path with
  | none =>
    cases h
    exact iff_of_true ⟨rfl, fun _ => rfl, rfl, rfl⟩ (.inl fun s hs => by cases hs)
  | some path =>
    by_cases hc : Creates os p path omode
    · obtain ⟨hblk, hfull⟩ := (sysOpen_creates st hunused hcwd (hnul path rfl) hc).of_eq_ok h rfl
      exact iff_of_false (fun hu => hblk hu.blk) fun hor => hor.elim (fun hno => hno path rfl hc) hfull
    · exact iff_of_true ((sysOpen_undone st hunused hcwd (hnul path rfl) hc).of_eq_ok h rfl)
        (.inl fun s hs => Option.some.inj hs ▸ hc)

end Fails

/-- Every file of the table is in use, for the root directory. -/
def crowded : Os where
  fs := (Fs.files 1).keep (fun _ => ROOTINO) fun i => if i = 0 then NFILE + 1 else 0
  file _ := { type := .inode, ref := 1, readable := true, ip := 0 }
  proc _ := { cwd := some 0 }

theorem crowded_still : crowded.fs.Still := by
  obtain ⟨h, wf⟩ := Fs.files_ok (n := 1) (by decide)
  have hslot : ∀ i : InodeIdx, 0 < (if i = 0 then NFILE + 1 else 0) → i = 0 := fun i hi => by
    by_contra hne
    rw [if_neg hne] at hi
    exact Nat.lt_irrefl 0 hi
  exact h.keep Nat.one_pos wf (fun _ _ => ⟨Nat.one_pos, Nat.le_refl 1⟩) fun i j hi hj _ => (hslot i hi).trans (hslot j hj).symm

/-- With no file left a directory cannot be opened, and stays as it is. -/
theorem open_fails_root : ∃ os', crowded.sysOpen ⟨fun _ => none, fun _ => none⟩ 0 (some [SLASH]) 0 = .ok (-1, os') ∧
    Undone crowded os' := by
  obtain ⟨⟨_, os'⟩, hr, rfl⟩ : ∃ r, crowded.sysOpen ⟨fun _ => none, fun _ => none⟩ 0 (some [SLASH]) 0 = .ok r ∧ r.1 = -1 := by
    decide +kernel
  refine ⟨os', hr, (open_fails crowded_still (fun f h => absurd h Nat.one_ne_zero) ⟨0, rfl, Nat.succ_pos _⟩ ?_ hr).mpr (.inl ?_)⟩
  · intro s hs
    obtain rfl := Option.some.inj hs
    decide
  · exact fun s _ h => h.1 rfl

/-- `open` makes the file `b`, finds no file for it in the table, and leaves it in the directory. -/
theorem created_by_failed_open : ∃ os',
    crowded.sysOpen ⟨fun _ => none, fun _ => none⟩ 0 (some [SLASH, 98]) (O_CREATE ||| O_RDWR) = .ok (-1, os') ∧
    crowded.fs.img.walk ROOTINO [[98]] = none ∧ os'.fs.img.walk ROOTINO [[98]] = some 2 := by
  obtain ⟨⟨_, os'⟩, hr, rfl, hwalk⟩ : ∃ r, crowded.sysOpen ⟨fun _ => none, fun _ => none⟩ 0 (some [SLASH, 98]) (O_CREATE ||| O_RDWR) = .ok r ∧
      r.1 = -1 ∧ r.2.fs.img.walk ROOTINO [[98]] = some 2 := by
    decide +kernel
  exact ⟨os', hr, by decide +kernel, hwalk⟩

end Os
end Xv6
