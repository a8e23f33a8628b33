import Xv6.Theorems.Dirs
import Xv6.Theorems.Refs

/-! Walking through directories. Between two system calls the kernel finds every file by its path, and a walk leaves nothing
    behind but the reference to the file that it has found. -/

namespace Xv6

/-! ### Components of a path -/

/-- The non-empty parts between slashes, cut to `DIRSIZ` bytes. -/
def components (path : List UInt8) : List (List UInt8) := ((path.splitOn SLASH).filter (· ≠ [])).map (List.take DIRSIZ)

theorem components_slash (path : List UInt8) : components (SLASH :: path) = components path := by
  simp [components, List.splitOn, List.splitOnP_cons_eq_if_modifyHead]

theorem components_dropWhile (path : List UInt8) : components (path.dropWhile (· = SLASH)) = components path := by
  induction path with
  | nil => rfl
  | cons c path ih =>
    by_cases hc : c = SLASH
    · rw [List.dropWhile_cons_of_pos (by simpa using hc), ih, hc, components_slash]
    · rw [List.dropWhile_cons_of_neg (by simpa using hc)]

theorem components_cons {c : UInt8} (hc : c ≠ SLASH) (path : List UInt8) : components (c :: path) =
    (c :: path.takeWhile (· ≠ SLASH)).take DIRSIZ :: components (path.dropWhile (· ≠ SLASH)) := by
  have hall : ∀ d ∈ c :: path.takeWhile (· ≠ SLASH), (d == SLASH) = false := fun d hd => by
    rcases List.mem_cons.mp hd with rfl | hd
    · simpa using hc
    · simpa using List.all_eq_true.mp List.all_takeWhile d hd
  have hsplit : c :: path = (c :: path.takeWhile (· ≠ SLASH)) ++ path.dropWhile (· ≠ SLASH) := by
    rw [List.cons_append, List.takeWhile_append_dropWhile]
  have hslash := List.head?_dropWhile_not (fun c => decide (c ≠ SLASH)) path
  rw [hsplit]
  generalize path.takeWhile (· ≠ SLASH) = name at hall ⊢
  match path.dropWhile (· ≠ SLASH), hslash with
  | [], _ => simp [components, List.splitOn, List.splitOnP_eq_singleton hall]
  | d :: rest, hslash =>
    obtain rfl : d = SLASH := by simpa using hslash
    rw [components_slash]
    simp only [components, List.splitOn]
    rw [List.splitOnP_append_cons_of_forall_mem hall _ (by simp)]
    rfl

/-- `skipelem` takes the first component off the path, and what follows it begins with the next one. -/
theorem skipelem_some {path name rest : List UInt8} (h : Fs.skipelem path = some (name, rest)) :
    components path = name :: components rest ∧ rest.length < path.length ∧ (components rest = [] → rest = []) ∧
      name.length ≤ DIRSIZ ∧ (∀ c ∈ name, c ∈ path) ∧ ∀ c ∈ rest, c ∈ path := by
  have hhead : ∀ path : List UInt8, ∀ {c t}, path.dropWhile (· = SLASH) = c :: t → c ≠ SLASH := fun path c t hs => by
    have := List.head?_dropWhile_not (fun c => decide (c = SLASH)) path
    rw [hs] at this
    simpa using this
  have hsuffix := List.dropWhile_suffix (fun c => decide (c = SLASH)) (l := path)
  rw [Fs.skipelem] at h
  split at h
  · cases h
  · rename_i hne
    obtain ⟨c, t, hs⟩ := List.exists_cons_of_ne_nil hne
    have hc := hhead path hs
    rw [hs] at h hsuffix
    rw [List.takeWhile_cons_of_pos (by simpa using hc), List.dropWhile_cons_of_pos (by simpa using hc)] at h
    obtain ⟨rfl, rfl⟩ := Prod.mk.inj (Option.some.inj h)
    have hrest : (t.dropWhile (· ≠ SLASH)).dropWhile (· = SLASH) <:+ t :=
      (List.dropWhile_suffix _).trans (List.dropWhile_suffix _)
    refine ⟨?_, ?_, fun hnil => ?_, List.length_take_le _ _, fun d hd => ?_, fun d hd => ?_⟩
    · rw [← components_dropWhile path, hs, components_cons hc, components_dropWhile]
    · have := hrest.length_le
      have := hsuffix.length_le
      simp only [List.length_cons] at this
      omega
    · by_contra hne'
      obtain ⟨d, r, hr⟩ := List.exists_cons_of_ne_nil hne'
      rw [hr, components_cons (hhead _ hr)] at hnil
      cases hnil
    · refine hsuffix.mem ?_
      exact List.cons_subset_cons c (List.takeWhile_sublist _).subset (List.mem_of_mem_take hd)
    · exact hsuffix.mem (List.mem_cons_of_mem c (hrest.mem hd))

theorem skipelem_none {path : List UInt8} (h : Fs.skipelem path = none) : components path = [] := by
  rw [Fs.skipelem] at h
  split at h
  · rename_i hnil
    rw [← components_dropWhile, hnil]
    rfl
  · cases h

namespace Img

def IsDir (g : Img) (j : Nat) : Prop := (g.ino j).type.toNat = T_DIR

instance (g : Img) (j : Nat) : Decidable (g.IsDir j) := inferInstanceAs (Decidable (_ = _))

/-- The inode that names lead to from inode `k`. -/
def walk (g : Img) : Nat → List (List UInt8) → Option Nat
  | k, [] => some k
  | k, name :: names => if g.IsDir k then ((g.dir k).get name).bind fun k => walk g k names else none

/-- The directory in which the last of the names is looked up. -/
def parent (g : Img) : Nat → List (List UInt8) → Option Nat
  | _, [] => none
  | k, name :: names =>
    if g.IsDir k then if names = [] then some k else ((g.dir k).get name).bind fun k => parent g k names
    else none

variable {g : Img}

theorem parent_eq : ∀ {names : List (List UInt8)} (k : Nat), names ≠ [] →
    g.parent k names = (g.walk k names.dropLast).bind fun k => if g.IsDir k then some k else none
  | [], _, h => absurd rfl h
  | [name], k, _ => rfl
  | name :: name' :: names, k, _ => by
    rw [List.dropLast_cons_cons, parent, walk, if_neg (List.cons_ne_nil _ _)]
    split
    · rw [Option.bind_assoc]
      exact Option.bind_congr fun k' _ => parent_eq k' (List.cons_ne_nil _ _)
    · rfl

theorem walk_eq_parent : ∀ {names : List (List UInt8)} (k : Nat) (h : names ≠ []),
    g.walk k names = (g.parent k names).bind fun k => (g.dir k).get (names.getLast h)
  | [], _, h => absurd rfl h
  | [name], k, _ => by
    by_cases hk : g.IsDir k
    · simp only [parent, walk, if_pos hk, if_true, Option.bind_some, List.getLast_singleton]
      exact Option.bind_fun_some _
    · simp only [parent, walk, if_neg hk, Option.bind_none]
  | name :: name' :: names, k, _ => by
    rw [parent, walk, if_neg (List.cons_ne_nil _ _)]
    split
    · rw [Option.bind_assoc]
      exact Option.bind_congr fun k' _ => walk_eq_parent k' (List.cons_ne_nil _ _)
    · rfl

end Img

namespace Fs
variable {fs fs' fs₀ : Fs} {i ip : InodeIdx} {refs locks : List InodeIdx} {devsw : DevSw} {k : Nat}

/-- Inode `k` is not freed when a reference to it is dropped that has just been taken. -/
def Anchored (fs : Fs) (k : Nat) : Prop := k < fs.sb.ninodes ∧ (fs.img.ino k).type ≠ 0 ∧
  ((fs.img.ino k).nlink ≠ 0 ∨ ∃ i, 0 < (fs.inode i).ref ∧ (fs.inode i).inum = k)

/-- The file system between two calls: no inode is locked, and directories consist of entries that name inodes. -/
structure Still (fs : Fs) : Prop where
  wf : fs.Wf
  unlocked : ∀ i, (fs.inode i).busy = false
  cached : ∀ i, 0 < (fs.inode i).ref → (fs.img.ino (fs.inode i).inum).type ≠ 0
  whole : ∀ j, fs.img.IsDir j → DIRENT ∣ (fs.img.ino j).size.toNat
  named : ∀ j, fs.img.IsDir j → ∀ s name k, (fs.img.dir j).slot s = some (name, k) → fs.Anchored k
  root : fs.Anchored ROOTINO

/-- Two slots of the inode cache are free. -/
def Spare (fs : Fs) : Prop := ∃ i j, i ≠ j ∧ (fs.inode i).ref = 0 ∧ (fs.inode j).ref = 0

/-- Since `fs₀` references and locks were taken and given back, and nothing was written. -/
structure Walks (fs₀ fs : Fs) (refs locks : List InodeIdx) : Prop extends Holding fs₀ fs refs locks where
  wf : fs.Wf
  blk : fs.blk = fs₀.blk
  sb : fs.sb = fs₀.sb
  inum : ∀ j, 0 < (fs₀.inode j).ref → (fs.inode j).inum = (fs₀.inode j).inum

theorem inum_setInode {x : Inode} (h : x.inum = (fs.inode i).inum) (j : InodeIdx) :
    ((fs.setInode i x).inode j).inum = (fs.inode j).inum := by
  by_cases hji : j = i
  · subst hji
    rw [inode_setInode_self, h]
  · rw [inode_setInode_of_ne fs hji]

namespace Walks

theorem start (wf : fs.Wf) : Walks fs fs [] [] := ⟨.start fs, wf, rfl, rfl, fun _ _ => rfl⟩

section
variable (w : Walks fs₀ fs refs locks)
include w

theorem img : fs.img = fs₀.img := by
  rw [Fs.img, Fs.img, w.blk, w.sb]

theorem perm {refs' : List InodeIdx} (h : refs.Perm refs') : Walks fs₀ fs refs' locks :=
  ⟨w.toHolding.perm h, w.wf, w.blk, w.sb, w.inum⟩

theorem pos (h : i ∈ refs) : 0 < (fs.inode i).ref := by
  have := List.count_pos_iff.mpr h
  rw [w.ref]
  omega

theorem setInode {refs' locks' : List InodeIdx} {x : Inode}
    (hold : Holding fs₀ (fs.setInode i x) refs' locks') (wf : (fs.setInode i x).Wf) (hinum : x.inum = (fs.inode i).inum) :
    Walks fs₀ (fs.setInode i x) refs' locks' :=
  ⟨hold, wf, w.blk, w.sb, fun j hj => by rw [inum_setInode hinum, w.inum j hj]⟩

theorem exists_free (hrefs : refs.length ≤ 1) (h : fs₀.Spare) : ∃ j, (fs.inode j).ref = 0 := by
  obtain ⟨i, j, hij, hi, hj⟩ := h
  have hfree : ∀ j, (fs₀.inode j).ref = 0 → j ∉ refs → (fs.inode j).ref = 0 := fun j hj hmem => by
    rw [w.ref, hj, List.count_eq_zero_of_not_mem hmem]
  by_cases hmem : i ∈ refs
  · refine ⟨j, hfree j hj fun hmem' => hij ?_⟩
    match refs, hrefs, hmem, hmem' with
    | [x], _, hmem, hmem' => exact (List.mem_singleton.mp hmem).trans (List.mem_singleton.mp hmem').symm
  · exact ⟨i, hfree i hi hmem⟩

theorem iget (hrefs : refs.length ≤ 1) (hk : k < fs₀.sb.ninodes) :
    (fs.iget ROOTDEV k).Spec (fun r => Walks fs₀ r.2 (r.1 :: refs) locks ∧ (r.2.inode r.1).inum = k ∧
      ∀ j, 0 < (fs.inode j).ref → r.2.inode j = { fs.inode j with ref := (r.2.inode j).ref })
      fun o => o = some "iget: no inodes" ∧ ¬fs₀.Spare := by
  have hgot : ∀ r, Got fs ROOTDEV k r ∧ Holding fs₀ r.2 (r.1 :: refs) locks → Walks fs₀ r.2 (r.1 :: refs) locks ∧
      (r.2.inode r.1).inum = k ∧ ∀ j, 0 < (fs.inode j).ref → r.2.inode j = { fs.inode j with ref := (r.2.inode j).ref } := by
    rintro r ⟨hgot, hold⟩
    have wf := (hgot.adds w.wf (w.sb ▸ hk)).wf
    obtain ⟨hinum, -, hslot⟩ := hgot.slot
    have hblk : r.2.blk = fs.blk ∧ r.2.sb = fs.sb := by cases hgot <;> exact ⟨rfl, rfl⟩
    refine ⟨⟨hold, wf, hblk.1.trans w.blk, hblk.2.trans w.sb, fun j hj => ?_⟩, hinum, fun j hj => (hslot j hj).2⟩
    rw [(hslot j (by rw [w.ref]; omega)).2, w.inum j hj]
  have hspec := (iget_spec fs ROOTDEV k).and (w.toHolding.iget ROOTDEV k).ensures
  by_cases hspare : fs₀.Spare
  · obtain ⟨r, hr, -⟩ := iget_ok fs ROOTDEV k (w.exists_free hrefs hspare)
    rw [hr] at hspec ⊢
    exact hgot r hspec
  · exact hspec.mono hgot fun o ho => ⟨ho, hspare⟩

theorem ilock (hi : i ∈ refs) (hbusy : (fs.inode i).busy = false)
    (htype : (fs₀.img.ino (fs.inode i).inum).type ≠ 0) :
    ∃ fs', fs.ilock i = .ok fs' ∧ Walks fs₀ fs' refs (i :: locks) ∧ fs'.Locked i ∧ ∀ j, (fs'.inode j).inum = (fs.inode j).inum := by
  have hpos := w.pos hi
  rw [← w.img] at htype
  refine ⟨_, w.wf.ilock hpos hbusy htype, w.setInode (w.toHolding.lock rfl) (w.wf.setSlot hpos rfl rfl fun _ => ⟨rfl, htype⟩) rfl,
    ?_, inum_setInode rfl⟩
  rw [Locked, inode_setInode_self]
  exact ⟨hpos, rfl, rfl⟩

end

theorem iunlock (w : Walks fs₀ fs refs (i :: locks)) (hl : fs.Locked i) :
    ∃ fs', fs.iunlock i = .ok fs' ∧ Walks fs₀ fs' refs locks ∧ ∀ j, (fs'.inode j).inum = (fs.inode j).inum := by
  have hold := w.toHolding.iunlock
  rw [hl.iunlock] at hold ⊢
  exact ⟨_, rfl, w.setInode hold (w.wf.setSlot hl.1 rfl rfl (w.wf.synced i hl.1)) rfl, inum_setInode rfl⟩

theorem not_last (w : Walks fs₀ fs (i :: refs) locks) (ha : fs₀.Anchored (fs.inode i).inum) : ¬LastPut (fs.inode i) := by
  rintro ⟨hone, hvalid, hzero⟩
  have hpos := w.pos List.mem_cons_self
  rcases ha.2.2 with hlink | ⟨j, hj, hinum⟩
  · rw [← w.img, (w.wf.synced i hpos hvalid).1] at hlink
    exact hlink hzero
  · have hji : j = i := w.wf.uniq j i (by rw [w.ref]; omega) hpos (by rw [w.inum j hj, hinum])
    subst hji
    have := w.ref j
    rw [List.count_cons_self] at this
    omega

theorem iput (w : Walks fs₀ fs (i :: refs) locks) (ha : fs₀.Anchored (fs.inode i).inum) :
    ∃ fs', fs.iput i = .ok fs' ∧ Walks fs₀ fs' refs locks ∧ ∀ j, (fs'.inode j).inum = (fs.inode j).inum := by
  have hpos := w.pos List.mem_cons_self
  have hold := w.toHolding.iput
  rw [iput_eq (w.not_last ha)] at hold ⊢
  exact ⟨_, rfl, w.setInode hold (w.wf.setSlot hpos rfl rfl (w.wf.synced i hpos)) rfl, inum_setInode rfl⟩

theorem iunlockput (w : Walks fs₀ fs (i :: refs) (i :: locks)) (hl : fs.Locked i) (ha : fs₀.Anchored (fs.inode i).inum) :
    ∃ fs', fs.iunlockput i = .ok fs' ∧ Walks fs₀ fs' refs locks ∧ ∀ j, (fs'.inode j).inum = (fs.inode j).inum := by
  obtain ⟨fs₁, hunlock, w₁, hinum₁⟩ := w.iunlock hl
  obtain ⟨fs₂, hput, w₂, hinum₂⟩ := w₁.iput (by rw [hinum₁]; exact ha)
  refine ⟨fs₂, ?_, w₂, fun j => (hinum₂ j).trans (hinum₁ j)⟩
  rw [Fs.iunlockput, hunlock]
  exact hput

theorem not_busy (w : Walks fs₀ fs refs locks) (st : fs₀.Still) (h : i ∉ locks) : (fs.inode i).busy = false := by
  cases hbusy : (fs.inode i).busy with
  | false => rfl
  | true =>
    rcases w.busy i hbusy with hb | hmem
    · rw [st.unlocked] at hb
      cases hb
    · exact absurd hmem h

theorem toDinode (w : Walks fs₀ fs refs locks) (hl : fs.Locked i) : (fs.inode i).toDinode = fs₀.img.ino (fs.inode i).inum := by
  rw [← w.img, (w.wf.synced i hl.1 hl.2.2).1]

theorem openDir (w : Walks fs₀ fs refs locks) (st : fs₀.Still) (hl : fs.Locked i) (hdir : fs₀.img.IsDir (fs.inode i).inum) :
    fs.OpenDir i := by
  refine ⟨w.wf, hl, ?_, ?_⟩
  · rw [w.toDinode hl]
    exact hdir
  · rw [w.toDinode hl]
    exact st.whole _ hdir

inductive Looked (fs₀ fs : Fs) (ip : InodeIdx) (name : List UInt8) : Option (InodeIdx × Nat) × Fs → Prop
  | none (h : (fs₀.img.dir (fs.inode ip).inum).get name = none) : Looked fs₀ fs ip name (none, fs)
  | some {j : InodeIdx} {off : Nat} {fs' : Fs} (h : (fs₀.img.dir (fs.inode ip).inum).get name = some (fs'.inode j).inum)
      (anchored : fs₀.Anchored (fs'.inode j).inum) (walks : Walks fs₀ fs' [ip, j] [ip]) (locked : fs'.Locked ip)
      (inum : (fs'.inode ip).inum = (fs.inode ip).inum) : Looked fs₀ fs ip name (some (j, off), fs')

theorem dirlookup (w : Walks fs₀ fs [ip] [ip]) (st : fs₀.Still) (hl : fs.Locked ip)
    (hdir : fs₀.img.IsDir (fs.inode ip).inum) (name : Nat → UInt8) :
    (fs.dirlookup devsw ip name).Spec (Looked fs₀ fs ip (nameOf name)) fun o => o = some "iget: no inodes" ∧ ¬fs₀.Spare := by
  have d := w.openDir st hl hdir
  have hdirAt : fs.dirAt ip = fs₀.img.dir (fs.inode ip).inum := by
    rw [dirAt, w.img]
  cases hfind : (fs.dirAt ip).find (nameOf name) with
  | none =>
    rw [d.dirlookup_none hfind]
    exact .none (by rw [← hdirAt, Table.get, hfind]; rfl)
  | some s =>
    obtain ⟨k, hk⟩ := (Table.find_eq_some hfind).1
    have ha := st.named _ hdir s (nameOf name) k (hdirAt ▸ hk)
    rw [d.dirlookup_some hfind hk, found, (w.wf.slot ip hl.1).1]
    refine (w.iget (Nat.le_refl 1) ha.1).bind ?_
    rintro ⟨j, fs'⟩ ⟨w', hinum, hsame⟩
    have hslot := hsame ip hl.1
    refine .some ?_ (hinum.symm ▸ ha) (w'.perm (.swap _ _ _)) ⟨w'.pos (.tail _ List.mem_cons_self), ?_, ?_⟩ ?_
    · rw [← hdirAt, Table.get, hfind, Option.bind_some, hk, hinum]
      rfl
    · rw [hslot]
      exact hl.2.1
    · rw [hslot]
      exact hl.2.2
    · rw [hslot]

/-- What `namex` returns: the inode at the end of the path, or the directory of the last component with its name. -/
structure Resolved (fs₀ : Fs) (parent : Bool) (k : Nat) (names : List (List UInt8)) (r : Option InodeIdx × List UInt8 × Fs) :
    Prop where
  walks : Walks fs₀ r.2.2 r.1.toList []
  anchored : ∀ i ∈ r.1, fs₀.Anchored (r.2.2.inode i).inum
  inum : r.1.map (fun i => (r.2.2.inode i).inum) = if parent then fs₀.img.parent k names else fs₀.img.walk k names
  name : parent = true → r.1 ≠ none → names.getLast? = some r.2.1

theorem leave {parent : Bool} (w : Walks fs₀ fs [ip] []) (ha : fs₀.Anchored (fs.inode ip).inum) (name : List UInt8) :
    ∃ r, namexFrom.leave parent fs ip name = .ok r ∧ Resolved fs₀ parent (fs.inode ip).inum [] r := by
  cases parent with
  | false => exact ⟨_, rfl, ⟨w, fun i hi => Option.some.inj hi ▸ ha, rfl, fun h => nomatch h⟩⟩
  | true =>
    obtain ⟨fs', hput, w', -⟩ := w.iput ha
    refine ⟨(none, name, fs'), ?_, ⟨w', (fun i hi => nomatch hi), rfl, fun _ h => absurd rfl h⟩⟩
    rw [namexFrom.leave, if_pos rfl, hput]
    rfl

theorem namexFrom {parent : Bool} (st : fs₀.Still) : ∀ (left : Nat) {fs : Fs} {ip : InodeIdx} {path : List UInt8}
    (name : List UInt8), path.length ≤ left → (0 : UInt8) ∉ path → Walks fs₀ fs [ip] [] → fs₀.Anchored (fs.inode ip).inum →
    (namexFrom devsw parent left fs ip path name).Spec (Resolved fs₀ parent (fs.inode ip).inum (components path))
      fun o => o = some "iget: no inodes" ∧ ¬fs₀.Spare := by
  intro left
  induction left with
  | zero =>
    intro fs ip path name hleft _ w ha
    obtain rfl := List.eq_nil_of_length_eq_zero (Nat.le_zero.mp hleft)
    obtain ⟨r, hr, hres⟩ := w.leave ha name
    rw [Fs.namexFrom, hr]
    exact hres
  | succ left ih =>
    intro fs ip path name hleft hnul w ha
    rw [Fs.namexFrom]
    cases hskip : skipelem path with
    | none =>
      obtain ⟨r, hr, hres⟩ := w.leave ha name
      dsimp only
      rw [hr, skipelem_none hskip]
      exact hres
    | some elem =>
      obtain ⟨name, rest⟩ := elem
      obtain ⟨hcomps, hlen, hnil, hshort, hname, hrest⟩ := skipelem_some hskip
      obtain ⟨fs₁, hlock, w₁, hl, hinum₁⟩ := w.ilock List.mem_cons_self (w.not_busy st List.not_mem_nil) ha.2.1
      have hname' : nameOf (fun j => name.getD j 0) = name := nameOf_getD hshort fun h => hnul (hname 0 h)
      dsimp only
      rw [hlock, Outcome.ok_bind, hcomps, ← hinum₁ ip, w₁.toDinode hl]
      rw [← hinum₁ ip] at ha
      by_cases hdir : fs₀.img.IsDir (fs₁.inode ip).inum
      · rw [if_neg (fun hne => hne hdir)]
        by_cases hstop : parent = true ∧ rest = []
        · obtain ⟨fs₂, hunlock, w₂, hinum₂⟩ := w₁.iunlock hl
          obtain ⟨rfl, rfl⟩ := hstop
          rw [if_pos ⟨rfl, rfl⟩, hunlock]
          refine ⟨w₂, fun i hi => ?_, ?_, fun _ _ => rfl⟩
          · rw [← Option.some.inj hi, hinum₂]
            exact ha
          · rw [if_pos rfl, Option.map_some, hinum₂, Img.parent, if_pos hdir]
            rfl
        · rw [if_neg hstop]
          have hstep : (if parent then fs₀.img.parent (fs₁.inode ip).inum (name :: components rest)
              else fs₀.img.walk (fs₁.inode ip).inum (name :: components rest)) =
              ((fs₀.img.dir (fs₁.inode ip).inum).get name).bind fun k =>
                if parent then fs₀.img.parent k (components rest) else fs₀.img.walk k (components rest) := by
            cases parent with
            | false => rw [if_neg Bool.false_ne_true, Img.walk, if_pos hdir]; rfl
            | true => rw [if_pos rfl, Img.parent, if_pos hdir, if_neg fun h => hstop ⟨rfl, hnil h⟩]; rfl
          refine (w₁.dirlookup st hl hdir _).bind fun r hr => ?_
          rw [hname'] at hr
          cases hr with
          | none hget =>
            obtain ⟨fs₂, hput, w₂, -⟩ := w₁.iunlockput hl ha
            dsimp only
            rw [hput]
            refine ⟨w₂, (fun i hi => absurd hi (Option.not_mem_none i)), ?_, fun _ h => absurd rfl h⟩
            rw [hstep, hget]
            rfl
          | @some j off fs₂ hget ha₂ w₂ hl₂ hinum₂ =>
            obtain ⟨fs₃, hput, w₃, hinum₃⟩ := w₂.iunlockput hl₂ (hinum₂ ▸ ha)
            dsimp only
            rw [hput, Outcome.ok_bind]
            rw [← hinum₃ j] at hget ha₂
            refine (ih name (by omega) (fun h => hnul (hrest 0 h)) w₃ ha₂).mono (fun r hr => ?_) fun o ho => ho
            refine ⟨hr.walks, hr.anchored, ?_, fun hp hne => ?_⟩
            · rw [hstep, hget]
              exact hr.inum
            · have hlast := hr.name hp hne
              rw [List.getLast?_cons, hlast]
              rfl
      · obtain ⟨fs₂, hput, w₂, -⟩ := w₁.iunlockput hl ha
        rw [if_pos (show (fs₀.img.ino (fs₁.inode ip).inum).type.toNat ≠ T_DIR from hdir), hput]
        refine ⟨w₂, (fun i hi => absurd hi (Option.not_mem_none i)), ?_, fun _ h => absurd rfl h⟩
        cases parent <;> simp [Img.parent, Img.walk, hdir]

end Walks

/-- The inode at which the walk along a path starts. -/
def startInum (fs : Fs) (cwd : Option InodeIdx) (path : List UInt8) : Nat :=
  if path.head? = some SLASH then ROOTINO else cwd.elim 0 fun i => (fs.inode i).inum

/-- `namex` follows the components of the path; it fails only if no slot of the inode cache is left. -/
theorem Still.namex {parent : Bool} {cwd : Option InodeIdx} {path : List UInt8} (st : fs.Still) (hnul : (0 : UInt8) ∉ path)
    (hcwd : path.head? ≠ some SLASH → ∃ i, cwd = some i ∧ 0 < (fs.inode i).ref) :
    (fs.namex devsw cwd path parent).Spec (Walks.Resolved fs parent (fs.startInum cwd path) (components path))
      fun o => o = some "iget: no inodes" ∧ ¬fs.Spare := by
  have w := Walks.start st.wf
  unfold Fs.namex startInum
  by_cases hroot : path.head? = some SLASH
  · rw [if_pos hroot, if_pos hroot]
    refine (w.iget (Nat.zero_le 1) st.root.1).bind ?_
    rintro ⟨ip, fs₁⟩ ⟨w₁, hinum, -⟩
    rw [← hinum]
    exact Walks.namexFrom st path.length [] (Nat.le_refl _) hnul w₁ (by rw [hinum]; exact st.root)
  · obtain ⟨i, rfl, hpos⟩ := hcwd hroot
    have w₁ : Walks fs (fs.idup i) [i] [] :=
      w.setInode (w.toHolding.idup i) (st.wf.setSlot hpos rfl rfl (st.wf.synced i hpos)) rfl
    have hinum : ((fs.idup i).inode i).inum = (fs.inode i).inum := by
      rw [Fs.idup, inode_setInode_self]
    rw [if_neg hroot, if_neg hroot, Option.elim_some, ← hinum]
    refine Walks.namexFrom st path.length [] (Nat.le_refl _) hnul w₁ ?_
    rw [hinum]
    exact ⟨(st.wf.slot i hpos).2, st.cached i hpos, .inr ⟨i, hpos, rfl⟩⟩

end Fs
end Xv6
