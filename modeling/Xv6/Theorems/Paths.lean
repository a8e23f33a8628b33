import Xv6.Theorems.Walk

/-! What path names mean. `namei` follows the components of a path from one directory to the next, and `nameiparent` stops
    before the last of them. -/

namespace Xv6

/-- The elements that `skipelem` takes off a path, one after the other. -/
def elems (path : List UInt8) : List (List UInt8) :=
  match _h : Fs.skipelem path with
  | none => []
  | some (name, rest) => name :: elems rest
termination_by path.length
decreasing_by exact (skipelem_some _h).2.1

theorem elems_eq (path : List UInt8) : elems path = components path := by
  fun_induction elems path with
  | case1 path h => exact (skipelem_none h).symm
  | case2 path name rest h ih => rw [ih, (skipelem_some h).1]

theorem mem_components {path name : List UInt8} (h : name ∈ components path) : name.length ≤ DIRSIZ ∧ ∀ c ∈ name, c ∈ path := by
  rw [← elems_eq] at h
  fun_induction elems path with
  | case1 path => cases h
  | case2 path name' rest hskip ih =>
    obtain ⟨-, -, -, hlen, hname, hrest⟩ := skipelem_some hskip
    rcases List.mem_cons.mp h with rfl | hmem
    · exact ⟨hlen, hname⟩
    · exact ⟨(ih hmem).1, fun c hc => hrest c ((ih hmem).2 c hc)⟩

theorem Img.isDir_of_parent {g : Img} {k j : Nat} {names : List (List UInt8)} (hne : names ≠ []) (h : g.parent k names = some j) :
    g.IsDir j := by
  rw [Img.parent_eq k hne] at h
  obtain ⟨j', -, h⟩ := Option.bind_eq_some_iff.mp h
  split at h
  · rename_i hdir
    exact Option.some.inj h ▸ hdir
  · cases h

namespace Fs
variable {fs : Fs} {devsw : DevSw} {cwd : Option InodeIdx} {path : List UInt8}

theorem Still.namei (st : fs.Still) (hnul : (0 : UInt8) ∉ path)
    (hcwd : path.head? ≠ some SLASH → ∃ i, cwd = some i ∧ 0 < (fs.inode i).ref) : (fs.namei devsw cwd path).Spec
      (fun r => Walks.Resolved fs false (fs.startInum cwd path) (components path) (r.1, [], r.2))
      fun o => o = some "iget: no inodes" ∧ ¬fs.Spare :=
  Outcome.Spec.bind (st.namex hnul hcwd) fun _ hr => ⟨hr.walks, hr.anchored, hr.inum, fun h => nomatch h⟩

/-- In the directory that `nameiparent` returns the last component is looked up, and what is found there is the file. -/
theorem Walks.Resolved.lookup {k : Nat} {d : InodeIdx} {name : List UInt8} {fs' : Fs} (devsw : DevSw)
    (st : fs.Still) (hnul : (0 : UInt8) ∉ path) (h : Walks.Resolved fs true k (components path) (some d, name, fs')) :
    ∃ fs₁, fs'.ilock d = .ok fs₁ ∧ Walks fs fs₁ [d] [d] ∧ fs₁.Locked d ∧ fs.Anchored (fs₁.inode d).inum ∧
      fs.img.walk k (components path) = (fs.img.dir (fs₁.inode d).inum).get name ∧
      (fs₁.dirlookup devsw d (fun j => name.getD j 0)).Spec (Walks.Looked fs fs₁ d name)
        fun o => o = some "iget: no inodes" ∧ ¬fs.Spare := by
  obtain ⟨w, ha, hinum, hname⟩ := h
  have hlast : (components path).getLast? = some name := hname rfl (Option.some_ne_none d)
  have hne : components path ≠ [] := by
    intro hnil
    rw [hnil] at hlast
    cases hlast
  rw [List.getLast?_eq_some_getLast hne] at hlast
  obtain ⟨hshort, hbytes⟩ := mem_components (Option.some.inj hlast ▸ List.getLast_mem hne)
  have hname' : nameOf (fun j => name.getD j 0) = name := nameOf_getD hshort fun h => hnul (hbytes 0 h)
  obtain ⟨fs₁, hlock, w₁, hl, hinum₁⟩ := w.ilock List.mem_cons_self (w.not_busy st List.not_mem_nil) (ha d rfl).2.1
  rw [if_pos rfl, Option.map_some, ← hinum₁ d] at hinum
  have hlook := @Walks.dirlookup fs₁ fs d devsw w₁ st hl (Img.isDir_of_parent hne hinum.symm) fun j => name.getD j 0
  rw [hname'] at hlook
  refine ⟨fs₁, hlock, w₁, hl, by rw [hinum₁]; exact ha d rfl, ?_, hlook⟩
  rw [Img.walk_eq_parent _ hne, ← hinum, Option.bind_some, Option.some.inj hlast]

/-- Path names are resolved component by component, and the last one by `dirlookup` in what `nameiparent` returns. -/
theorem path_resolution (st : fs.Still) (hspare : fs.Spare) (hnul : (0 : UInt8) ∉ path)
    (hcwd : path.head? ≠ some SLASH → ∃ i, cwd = some i ∧ 0 < (fs.inode i).ref) :
    elems path = components path ∧
    (∃ ip fs', fs.namei devsw cwd path = .ok (ip, fs') ∧ fs'.img = fs.img ∧
      ip.map (fun i => (fs'.inode i).inum) = fs.img.walk (fs.startInum cwd path) (components path)) ∧
    ∀ hne : components path ≠ [], ∃ dp name fs', fs.nameiparent devsw cwd path = .ok (dp, name, fs') ∧ fs'.img = fs.img ∧
      dp.map (fun d => (fs'.inode d).inum) = ((fs.img.walk (fs.startInum cwd path) (components path).dropLast).bind fun k =>
        if fs.img.IsDir k then some k else none) ∧
      (dp = none → fs.img.walk (fs.startInum cwd path) (components path) = none) ∧
      ∀ d, dp = some d → name = (components path).getLast hne ∧ ∃ fs₁ ip fs₂, fs'.ilock d = .ok fs₁ ∧
        fs₁.dirlookup devsw d (fun j => name.getD j 0) = .ok (ip, fs₂) ∧
        ip.map (fun x => (fs₂.inode x.1).inum) = fs.img.walk (fs.startInum cwd path) (components path) := by
  refine ⟨elems_eq path, ?_, fun hne => ?_⟩
  · obtain ⟨⟨ip, fs'⟩, hr, hres⟩ := Outcome.Spec.exists_ok (st.namei hnul hcwd) fun _ ho => ho.2 hspare
    exact ⟨ip, fs', hr, hres.walks.img, hres.inum⟩
  · obtain ⟨⟨dp, name, fs'⟩, hr, hres⟩ :=
      Outcome.Spec.exists_ok (@Still.namex fs devsw true cwd path st hnul hcwd) fun _ ho => ho.2 hspare
    have hinum := hres.inum
    rw [if_pos rfl] at hinum
    refine ⟨dp, name, fs', hr, hres.walks.img, by rw [hinum, Img.parent_eq _ hne], fun hnone => ?_, ?_⟩
    · rw [Img.walk_eq_parent _ hne, ← hinum, hnone]
      rfl
    · rintro d rfl
      have hlast : (components path).getLast? = some name := hres.name rfl (Option.some_ne_none d)
      obtain ⟨fs₁, hlock, -, -, -, hwalk, hlook⟩ := hres.lookup devsw st hnul
      obtain ⟨⟨ip, fs₂⟩, hfind, hlooked⟩ := Outcome.Spec.exists_ok hlook fun _ ho => ho.2 hspare
      rw [List.getLast?_eq_some_getLast hne] at hlast
      refine ⟨(Option.some.inj hlast).symm, fs₁, ip, fs₂, hlock, hfind, ?_⟩
      rw [hwalk]
      cases hlooked with
      | none h => rw [h]; rfl
      | some h _ _ _ _ => rw [h]; rfl

/-! ### A root directory and some files -/

def node (j : Nat) : Dinode := { type := .ofNat (if j = 1 then T_DIR else T_FILE), nlink := 1 }

/-- A disk with the inodes 1 to `n`. -/
def files : Nat → Fs
  | 0 => blank
  | n + 1 =>
    let fs := files n
    fs.logWrite (fs.sb.iblock (n + 1)) (writeDinode (fs.blk (fs.sb.iblock (n + 1))) (n + 1) (node (n + 1)))

structure Files (fs : Fs) (n : Nat) : Prop where
  sb : fs.sb = blankSb
  lt : n < 200
  ino : ∀ j, 0 < j → j ≤ n → fs.img.ino j = node j
  free : ∀ j, j = 0 ∨ n < j → (fs.img.ino j).type = 0

theorem files_ok : ∀ {n : Nat}, n < 200 → Files (files n) n ∧ (files n).Wf
  | 0, _ => ⟨⟨rfl, by decide, fun j hj hle => by omega, fun j _ => blank_free j⟩, blank_wf⟩
  | n + 1, hn => by
    obtain ⟨ih, wf⟩ := files_ok (n := n) (by omega)
    have hlt : n + 1 < (files n).sb.ninodes := by rw [ih.sb]; exact hn
    have himg : (files (n + 1)).img = (files n).img.setIno (n + 1) (node (n + 1)) := imgOf_writeDinode wf.super.ok hlt _
    refine ⟨⟨ih.sb, hn, fun j hj hle => ?_, fun j hj => ?_⟩,
      (wf.newInode hlt (ih.free _ (.inr (Nat.lt_succ_self n))) rfl (fun _ => rfl) rfl).wf⟩
    · rw [himg]
      by_cases hjn : j = n + 1
      · rw [hjn, Img.ino_setIno_self]
      · rw [Img.ino_setIno_of_ne hjn, ih.ino j hj (by omega)]
    · rw [himg, Img.ino_setIno_of_ne (by omega), ih.free j (by omega)]

theorem Files.isDir {n : Nat} (h : Files fs n) {j : Nat} (hdir : fs.img.IsDir j) : j = 1 := by
  by_contra hne
  rw [Img.IsDir] at hdir
  by_cases hj : 0 < j ∧ j ≤ n
  · rw [h.ino j hj.1 hj.2, node, if_neg hne] at hdir
    cases hdir
  · rw [h.free j (by omega)] at hdir
    cases hdir

theorem Files.still {n : Nat} (h : Files fs n) (hn : 0 < n) (wf : fs.Wf) (hbusy : ∀ i, (fs.inode i).busy = false)
    (hinum : ∀ i, 0 < (fs.inode i).ref → 0 < (fs.inode i).inum ∧ (fs.inode i).inum ≤ n) : fs.Still := by
  have htype : ∀ j, (node j).type ≠ 0 := fun j => by
    rw [node]
    split <;> decide
  have hroot := h.ino 1 Nat.one_pos hn
  have hempty : ∀ j, fs.img.IsDir j → (fs.img.ino j).size = 0 := fun j hj => by
    rw [h.isDir hj, hroot]
    rfl
  refine ⟨wf, hbusy, fun i hi => ?_, fun j hj => ?_, fun j hj s name k hs => ?_, ?_⟩
  · rw [h.ino _ (hinum i hi).1 (hinum i hi).2]
    exact htype _
  · rw [hempty j hj]
    exact ⟨0, rfl⟩
  · have hlt : s < (fs.img.ino j).size.toNat / DIRENT := Table.lt_size hs
    rw [hempty j hj] at hlt
    exact absurd hlt (Nat.not_lt_zero s)
  · refine ⟨by rw [h.sb]; decide, ?_, .inl ?_⟩
    · rw [ROOTINO, hroot]
      exact htype 1
    · rw [ROOTINO, hroot]
      decide

/-- A file that is not there, in a root directory that is. -/
theorem path_resolution_missing : (files 1).Still ∧ (files 1).Spare ∧ (0 : UInt8) ∉ [SLASH, SLASH, 97, SLASH] ∧
    elems [SLASH, SLASH, 97, SLASH] = [[97]] ∧
    ∃ d fs' fs₁ fs₂,
      (files 1).nameiparent ⟨fun _ => none, fun _ => none⟩ none [SLASH, SLASH, 97, SLASH] = .ok (some d, [97], fs') ∧
      (fs'.inode d).inum = ROOTINO ∧ fs'.ilock d = .ok fs₁ ∧
      fs₁.dirlookup ⟨fun _ => none, fun _ => none⟩ d (fun j => [97].getD j 0) = .ok (none, fs₂) := by
  obtain ⟨h, wf⟩ := files_ok (n := 1) (by decide)
  have st : (files 1).Still := h.still Nat.one_pos wf (fun _ => rfl) fun i hi => absurd hi (Nat.lt_irrefl 0)
  have hspare : (files 1).Spare := ⟨0, 1, by decide, rfl, rfl⟩
  have hnul : (0 : UInt8) ∉ [SLASH, SLASH, 97, SLASH] := by decide
  obtain ⟨helems, -, hparent⟩ := @path_resolution _ ⟨fun _ => none, fun _ => none⟩ none _ st hspare hnul fun hne => absurd rfl hne
  have hcomps : components [SLASH, SLASH, 97, SLASH] = [[97]] := by decide
  have hdir : (files 1).img.IsDir ROOTINO := by rw [Img.IsDir, ROOTINO, h.ino 1 Nat.one_pos (Nat.le_refl 1)]; rfl
  have hwalk : (files 1).img.walk ROOTINO [[97]] = none := by
    rw [Img.walk, if_pos hdir, Table.get_eq_none_iff.mpr fun s v hv => ?_]
    · rfl
    · have hlt : s < ((files 1).img.ino 1).size.toNat / DIRENT := Table.lt_size hv
      rw [h.ino 1 Nat.one_pos (Nat.le_refl 1)] at hlt
      exact absurd hlt (Nat.not_lt_zero s)
  have hstart : (files 1).startInum none [SLASH, SLASH, 97, SLASH] = ROOTINO := if_pos rfl
  obtain ⟨dp, name, fs', hr, -, hinum, -, hlook⟩ := hparent (by rw [hcomps]; exact List.cons_ne_nil _ _)
  simp only [hcomps, hstart, List.dropLast_singleton, Img.walk, Option.bind_some, if_pos hdir] at hinum
  obtain ⟨d, rfl, hd⟩ := Option.map_eq_some_iff.mp hinum
  obtain ⟨hname, fs₁, ip, fs₂, hlock, hfind, hip⟩ := hlook d rfl
  simp only [hcomps, List.getLast_singleton] at hname
  rw [hcomps, hstart, hwalk, Option.map_eq_none_iff] at hip
  subst hname hip
  exact ⟨st, hspare, hnul, helems.trans hcomps, d, fs', fs₁, fs₂, hr, hd, hlock, hfind⟩

def keep (fs : Fs) (inum ref : InodeIdx → Nat) : Fs :=
  { fs with inode := fun i => { type := 0, dev := ROOTDEV, inum := inum i, ref := ref i, busy := false, valid := false } }

theorem Files.keep {n : Nat} {inum ref : InodeIdx → Nat} (h : Files fs n) (hn : 0 < n) (wf : fs.Wf)
    (hinum : ∀ i, 0 < ref i → 0 < inum i ∧ inum i ≤ n)
    (huniq : ∀ i j, 0 < ref i → 0 < ref j → inum i = inum j → i = j) : (fs.keep inum ref).Still := by
  have hfiles : Files (fs.keep inum ref) n := ⟨h.sb, h.lt, h.ino, h.free⟩
  refine hfiles.still hn ⟨⟨wf.super.ok, wf.super.2, wf.super.3⟩, wf.owned, wf.noHole, fun i hi => ⟨rfl, ?_⟩,
    (fun i _ hv => nomatch hv), huniq⟩ (fun _ => rfl) hinum
  rw [hfiles.sb]
  exact Nat.lt_of_le_of_lt (hinum i hi).2 h.lt

/-- Every slot is in use, for a file each. -/
def crowded : Fs := (files 51).keep (fun i => i.val + 2) fun _ => 1

/-- With 50 files open a path cannot be resolved, not even that of the root directory. -/
theorem no_inodes_left : crowded.Still ∧ ∀ devsw cwd, crowded.namei devsw cwd [SLASH] = .panic "iget: no inodes" := by
  obtain ⟨h, wf⟩ := files_ok (n := 51) (by decide)
  refine ⟨h.keep (by decide) wf (fun i _ => ⟨Nat.succ_pos _, Nat.succ_le_succ i.isLt⟩) fun i j _ _ hij => Fin.ext (Nat.add_right_cancel hij),
    fun devsw cwd => ?_⟩
  have hspec := iget_spec crowded ROOTDEV ROOTINO
  unfold Fs.namei Fs.namex
  rw [if_pos (List.head?_cons ..)]
  cases hget : crowded.iget ROOTDEV ROOTINO with
  | ok r =>
    rw [hget] at hspec
    cases hspec with
    | hit i _ _ hinum => exact absurd hinum (Nat.succ_succ_ne_one _)
    | fresh i hfree _ => exact absurd hfree Nat.one_ne_zero
  | sleep =>
    rw [hget] at hspec
    cases hspec
  | panic msg =>
    rw [hget] at hspec
    cases hspec
    rfl

end Fs
end Xv6
