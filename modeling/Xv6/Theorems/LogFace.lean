import Xv6.Log
import Xv6.Lib.Redo
import Xv6.Theorems.Bio

/-! The face of the log: what of a state decides whether a crash loses or tears a transaction. It is the disk,
    the view of every block, the pinned blocks, the header in memory and the transactions; which buffer
    holds what does not matter. The phases of a commit and of a recovery are stated over it. -/

namespace Xv6
open Function (update update_of_ne update_self)
open Bytes

/-! ### The header block -/

theorem decodeHead_encodeHead (b : Block) {lh : List Nat} (hlen : 4 + 4 * lh.length ≤ BSIZE)
    (hlt : ∀ x ∈ lh, x < 2 ^ 32) : decodeHead (encodeHead b lh) = lh := by
  have hn : (encodeHead b lh).word 4 0 = lh.length := by
    rw [encodeHead, Buffer.word_setWords_disjoint _ _ _ (by omega), Buffer.word_setWord_same _ _ (by decide)]
    exact Nat.mod_eq_of_lt (by simp only [BSIZE] at hlen; omega)
  have hsmall : lh.length < 2 ^ 31 := by
    simp only [BSIZE] at hlen
    omega
  simp only [decodeHead, hn, if_pos hsmall]
  apply List.ext_getElem
  · simp
  · intro k hk hk'
    have := Buffer.word_setWords lh (b.setWord 4 0 lh.length) 4 hlen hk'
    simp only [List.getElem_map, List.getElem_range, encodeHead, this, List.getD_eq_getElem?_getD,
      List.getElem?_eq_getElem hk', Option.getD_some]
    exact Nat.mod_eq_of_lt (hlt _ (List.getElem_mem hk'))

@[simp] theorem decodeHead_encodeHead_nil (b : Block) : decodeHead (encodeHead b []) = [] :=
  decodeHead_encodeHead b (by decide) (by simp)

/-! ### Faces -/

def Rec.pair (r : Rec) : Nat × Block := (r.blockno, r.data)

/-- The home blocks after the given commits, starting from `disk`. -/
def afterCommits (disk : Nat → Block) (commits : List (List Rec)) : Nat → Block :=
  Redo.replay (commits.flatten.map Rec.pair) disk

structure Face where
  disk : Nat → Block
  view : Nat → Block
  pinned : Nat → Prop
  /-- The blocks whose holder has changed them and not yet logged the change. -/
  chg : Nat → Prop
  lh : List Nat
  cur : List Rec
  commits : List (List Rec)

namespace Face
variable {cfg : LogCfg} {d₀ : Nat → Block} {f : Face}

/-- The contents the finished commits have left. -/
def com (f : Face) (d₀ : Nat → Block) : Nat → Block := afterCommits d₀ f.commits

/-- The contents the finished commits and the `log_write`s since have left. -/
def vol (f : Face) (d₀ : Nat → Block) : Nat → Block := Redo.replay (f.cur.map Rec.pair) (f.com d₀)

end Face

/-- A disk from which recovery reaches the contents `C`: the blocks its header names have their contents in
    the log, the others at home. -/
structure Recoverable (cfg : LogCfg) (C disk : Nat → Block) : Prop where
  short : (decodeHead (disk cfg.start)).length < cfg.size
  names : ∀ b ∈ decodeHead (disk cfg.start), cfg.Home b ∧ b < cfg.disksize
  logged : ∀ j b, (decodeHead (disk cfg.start))[j]? = some b → disk (cfg.start + j + 1) = C b
  home : ∀ b, cfg.Home b → b ∉ decodeHead (disk cfg.start) → disk b = C b

namespace Face
variable (cfg : LogCfg) (d₀ : Nat → Block) (f : Face)

/-- No commit is going on: the disk has the committed contents and no header, the views have the changes
    logged since, and exactly the blocks of the header in memory are pinned. -/
structure Quiet : Prop where
  head : decodeHead (f.disk cfg.start) = []
  home : ∀ b, cfg.Home b → f.disk b = f.com d₀ b
  view : ∀ b, cfg.Home b → ¬f.chg b → f.view b = f.vol d₀ b
  nodup : f.lh.Nodup
  pinned : ∀ b, f.pinned b ↔ b ∈ f.lh
  names : ∀ b ∈ f.lh, cfg.Home b ∧ b < cfg.disksize
  cur : ∀ b, b ∈ f.lh ↔ ∃ r ∈ f.cur, r.blockno = b

/-- `write_log` has copied the first `t` blocks into the log. -/
structure WroteLog (t : Nat) : Prop extends Quiet cfg d₀ f where
  still : ∀ b, ¬f.chg b
  logged : ∀ j b, j < t → f.lh[j]? = some b → f.disk (cfg.start + j + 1) = f.vol d₀ b

/-- The header is on disk and `install_trans` has copied the first `t` blocks home. -/
structure Installing (t : Nat) : Prop where
  cur : f.cur = []
  still : ∀ b, ¬f.chg b
  head : decodeHead (f.disk cfg.start) = f.lh
  short : f.lh.length < cfg.size
  names : ∀ b ∈ f.lh, cfg.Home b ∧ b < cfg.disksize
  logged : ∀ j b, f.lh[j]? = some b → f.disk (cfg.start + j + 1) = f.com d₀ b
  home : ∀ b, cfg.Home b → b ∉ f.lh.drop t → f.disk b = f.com d₀ b
  pinned : ∀ b, f.pinned b → b ∈ f.lh.drop t ∧ f.view b = f.com d₀ b

/-- Everything is home again and the header in memory is empty, the one on disk not yet. -/
structure Cleared : Prop where
  cur : f.cur = []
  lh : f.lh = []
  still : ∀ b, ¬f.chg b
  recoverable : Recoverable cfg (f.com d₀) f.disk
  home : ∀ b, cfg.Home b → f.disk b = f.com d₀ b
  pinned : ∀ b, ¬f.pinned b

/-- Right after a crash. -/
structure Booted : Prop where
  cur : f.cur = []
  still : ∀ b, ¬f.chg b
  recoverable : Recoverable cfg (f.com d₀) f.disk
  pinned : ∀ b, ¬f.pinned b

/-! ### What the steps do to a face -/

section Steps
variable {cfg d₀ f}

def modified (f : Face) (b : Nat) (x : Block) : Face :=
  { f with view := update f.view b x, chg := fun c => c = b ∨ f.chg c }

def checked (f : Face) (b : Nat) : Face := { f with chg := fun c => c = b ∨ f.chg c }

def logged (f : Face) (r : Rec) : Face :=
  { f with
    pinned := fun c => c = r.blockno ∨ f.pinned c
    chg := fun c => c ≠ r.blockno ∧ f.chg c
    lh := if r.blockno ∈ f.lh then f.lh else f.lh ++ [r.blockno]
    cur := f.cur ++ [r] }

def wrote (f : Face) (b : Nat) (x : Block) : Face :=
  { f with
    disk := update f.disk b x
    view := update f.view b x
    pinned := fun c => c ≠ b ∧ f.pinned c }

def committed (f : Face) : Face := { f with commits := f.commits ++ [f.cur], cur := [] }

theorem com_committed : f.committed.com d₀ = f.vol d₀ := by
  simp [committed, com, vol, afterCommits, Redo.replay_append]

theorem vol_of_cur_nil (h : f.cur = []) : f.vol d₀ = f.com d₀ := by
  simp [vol, h]

theorem vol_logged (r : Rec) : (f.logged r).vol d₀ = update (f.vol d₀) r.blockno r.data := by
  simp only [vol, logged, List.map_append, List.map_cons, List.map_nil]
  exact Redo.replay_snoc _ _ _ _

theorem start_not_home (cfg : LogCfg) : ¬cfg.Home cfg.start := by
  have := cfg.size_ge
  rintro (h | h) <;> simp only [LOGSIZE, MAXOPBLOCKS] at this <;> omega

theorem log_not_home {j : Nat} (h : j + 1 < cfg.size) : ¬cfg.Home (cfg.start + j + 1) := by
  rintro (h' | h') <;> omega

theorem Quiet.recoverable (h : Quiet cfg d₀ f) : Recoverable cfg (f.com d₀) f.disk where
  short := by
    have := cfg.size_ge
    simp only [h.head, List.length_nil, LOGSIZE, MAXOPBLOCKS] at this ⊢
    omega
  names := by simp [h.head]
  logged := by simp [h.head]
  home := fun b hb _ => h.home b hb

theorem Installing.recoverable {t : Nat} (h : Installing cfg d₀ f t) : Recoverable cfg (f.com d₀) f.disk where
  short := by rw [h.head]; exact h.short
  names := by rw [h.head]; exact h.names
  logged := by rw [h.head]; exact h.logged
  home := fun b hb hn => h.home b hb fun hd => hn (h.head ▸ List.mem_of_mem_drop hd)

theorem Quiet.modified (h : Quiet cfg d₀ f) {b : Nat} (x : Block) : Quiet cfg d₀ (f.modified b x) :=
  { h with
    view := fun c hc hn => by
      have hcb : c ≠ b := fun e => hn (Or.inl e)
      simp only [Face.modified, update_of_ne hcb]
      exact h.view c hc fun h' => hn (Or.inr h') }

theorem Quiet.checked (h : Quiet cfg d₀ f) {b : Nat} : Quiet cfg d₀ (f.checked b) :=
  { h with view := fun c hc hn => h.view c hc fun h' => hn (Or.inr h') }

theorem Quiet.logged (h : Quiet cfg d₀ f) {r : Rec} (hr : r.data = f.view r.blockno) (hb : cfg.Home r.blockno)
    (hsize : r.blockno < cfg.disksize) : Quiet cfg d₀ (f.logged r) where
  head := h.head
  home := h.home
  view := fun c hc hn => by
    rw [vol_logged]
    by_cases hcb : c = r.blockno
    · subst hcb
      rw [update_self, hr]
      rfl
    · rw [update_of_ne hcb]
      exact h.view c hc fun h' => hn ⟨hcb, h'⟩
  nodup := by
    simp only [Face.logged]
    split
    · exact h.nodup
    · rename_i hnew
      rw [List.nodup_append]
      refine ⟨h.nodup, by simp, fun a ha b hb hab => ?_⟩
      rw [List.mem_singleton.mp hb] at hab
      exact hnew (hab ▸ ha)
  pinned := fun c => by
    simp only [Face.logged, h.pinned]
    split
    · rename_i hold
      exact ⟨fun hc => hc.elim (fun e => e ▸ hold) id, Or.inr⟩
    · simp [or_comm]
  names := fun c hc => by
    simp only [Face.logged] at hc
    split at hc
    · exact h.names c hc
    · rcases List.mem_append.mp hc with hc | hc
      · exact h.names c hc
      · rw [List.mem_singleton.mp hc]
        exact ⟨hb, hsize⟩
  cur := fun c => by
    have hiff : (∃ r' ∈ f.cur ++ [r], r'.blockno = c) ↔ c ∈ f.lh ∨ r.blockno = c := by
      simp [h.cur, or_and_right, exists_or]
    simp only [Face.logged, hiff]
    split
    · rename_i hold
      exact ⟨Or.inl, fun hc => hc.elim id fun e => e ▸ hold⟩
    · simp [eq_comm]

theorem WroteLog.wrote {t b : Nat} (h : WroteLog cfg d₀ f t) (hb : f.lh[t]? = some b) (hlen : f.lh.length < cfg.size) :
    WroteLog cfg d₀ (f.wrote (cfg.start + t + 1) (f.view b)) (t + 1) := by
  have ht : t < f.lh.length := (List.getElem?_eq_some_iff.mp hb).1
  have hnot : ¬cfg.Home (cfg.start + t + 1) := log_not_home (by omega)
  have hne : ∀ c, cfg.Home c → c ≠ cfg.start + t + 1 := fun c hc e => hnot (e ▸ hc)
  have hmem : ∀ c ∈ f.lh, c ≠ cfg.start + t + 1 := fun c hc => hne c (h.names c hc).1
  have hbmem : b ∈ f.lh := List.mem_of_getElem? hb
  refine { toQuiet := ⟨?_, ?_, ?_, h.nodup, ?_, h.names, h.cur⟩, still := h.still, logged := ?_ }
  · simp only [Face.wrote]
    rw [update_of_ne (by omega)]
    exact h.head
  · intro c hc
    simp only [Face.wrote]
    rw [update_of_ne (hne c hc)]
    exact h.home c hc
  · intro c hc hn
    simp only [Face.wrote]
    rw [update_of_ne (hne c hc)]
    exact h.view c hc hn
  · intro c
    simp only [Face.wrote, h.pinned]
    exact ⟨And.right, fun hc => ⟨hmem c hc, hc⟩⟩
  · intro j c hj hc
    simp only [Face.wrote] at hc ⊢
    by_cases hjt : j = t
    · subst hjt
      rw [update_self]
      rw [hb] at hc
      cases hc
      exact h.view b (h.names b hbmem).1 (h.still b)
    · rw [update_of_ne (by omega)]
      exact h.logged j c (by omega) hc

theorem WroteLog.committed {x : Block} (h : WroteLog cfg d₀ f f.lh.length) (hlen : f.lh.length < cfg.size)
    (hx : decodeHead x = f.lh) : Installing cfg d₀ (f.wrote cfg.start x).committed 0 := by
  have hne : ∀ c, cfg.Home c → c ≠ cfg.start := fun c hc e => start_not_home cfg (e ▸ hc)
  have hcom : (f.wrote cfg.start x).committed.com d₀ = f.vol d₀ := com_committed
  -- A block outside the header has not changed since the last commit.
  have hold : ∀ c, cfg.Home c → c ∉ f.lh → f.disk c = f.vol d₀ c := fun c hc hn => by
    rw [h.home c hc]
    refine (Redo.replay_of_notMem _ fun w hw e => hn ((h.cur c).mpr ?_)).symm
    obtain ⟨r, hr, rfl⟩ := List.mem_map.mp hw
    exact ⟨r, hr, e⟩
  refine ⟨rfl, h.still, ?_, hlen, h.names, ?_, ?_, ?_⟩
  · simp only [Face.committed, Face.wrote, update_self]
    exact hx
  · intro j b hb
    rw [hcom]
    simp only [Face.committed, Face.wrote] at hb ⊢
    rw [update_of_ne (by omega)]
    exact h.logged j b (List.getElem?_eq_some_iff.mp hb).1 hb
  · intro b hb hn
    rw [hcom]
    simp only [Face.committed, Face.wrote, List.drop_zero] at hn ⊢
    rw [update_of_ne (hne b hb)]
    exact hold b hb hn
  · intro b hb
    rw [hcom]
    simp only [Face.committed, Face.wrote, h.pinned] at hb ⊢
    rw [update_of_ne hb.1]
    exact ⟨by simpa using hb.2, h.view b (h.names b hb.2).1 (h.still b)⟩

theorem Installing.wrote {t b : Nat} (h : Installing cfg d₀ f t) (hb : f.lh[t]? = some b) :
    Installing cfg d₀ (f.wrote b (f.disk (cfg.start + t + 1))) (t + 1) := by
  obtain ⟨ht, hbt⟩ := List.getElem?_eq_some_iff.mp hb
  have hbhome : cfg.Home b := (h.names b (List.mem_of_getElem? hb)).1
  have hdrop : f.lh.drop t = b :: f.lh.drop (t + 1) := by
    rw [← hbt]
    exact List.drop_eq_getElem_cons ht
  have hstart : cfg.start ≠ b := fun e => start_not_home cfg (e ▸ hbhome)
  have hlog : ∀ j, j < f.lh.length → cfg.start + j + 1 ≠ b := fun j hj e =>
    log_not_home (by have := h.short; omega) (e ▸ hbhome)
  refine ⟨h.cur, h.still, ?_, h.short, h.names, ?_, ?_, ?_⟩
  · simp only [Face.wrote, update_of_ne hstart]
    exact h.head
  · intro j c hc
    simp only [Face.wrote, update_of_ne (hlog j (List.getElem?_eq_some_iff.mp hc).1)]
    exact h.logged j c hc
  · intro c hc hn
    simp only [Face.wrote] at hn ⊢
    by_cases hcb : c = b
    · subst hcb
      rw [update_self]
      exact h.logged t c hb
    · rw [update_of_ne hcb]
      exact h.home c hc (by simp [hdrop, hcb, hn])
  · intro c hc
    simp only [Face.wrote] at hc ⊢
    obtain ⟨hmem, hview⟩ := h.pinned c hc.2
    rw [update_of_ne hc.1]
    rw [hdrop, List.mem_cons] at hmem
    exact ⟨hmem.resolve_left hc.1, hview⟩

theorem Installing.cleared (h : Installing cfg d₀ f f.lh.length) : Cleared cfg d₀ { f with lh := [] } where
  cur := h.cur
  lh := rfl
  still := h.still
  recoverable := h.recoverable
  home := fun b hb => h.home b hb (by simp)
  pinned := fun b hb => by simpa using (h.pinned b hb).1

theorem Cleared.erased {x : Block} (h : Cleared cfg d₀ f) (hx : decodeHead x = [])
    (hview : ∀ b, f.view b = f.disk b) : Quiet cfg d₀ (f.wrote cfg.start x) where
  head := by
    simp only [Face.wrote, update_self]
    exact hx
  home := fun b hb => by
    have hne : b ≠ cfg.start := fun e => start_not_home cfg (e ▸ hb)
    simp only [Face.wrote, update_of_ne hne]
    exact h.home b hb
  view := fun b hb _ => by
    have hne : b ≠ cfg.start := fun e => start_not_home cfg (e ▸ hb)
    have hvol : (f.wrote cfg.start x).vol d₀ = f.com d₀ := vol_of_cur_nil h.cur
    rw [hvol]
    simp only [Face.wrote, update_of_ne hne, hview]
    exact h.home b hb
  nodup := by simp [Face.wrote, h.lh]
  pinned := fun b => by simp [Face.wrote, h.lh, h.pinned]
  names := by simp [Face.wrote, h.lh]
  cur := by simp [Face.wrote, h.lh, h.cur]

theorem Booted.readHead (h : Booted cfg d₀ f) : Installing cfg d₀ { f with lh := decodeHead (f.disk cfg.start) } 0 where
  cur := h.cur
  still := h.still
  head := rfl
  short := h.recoverable.short
  names := h.recoverable.names
  logged := h.recoverable.logged
  home := fun b hb hn => h.recoverable.home b hb (by simpa using hn)
  pinned := fun b hb => absurd hb (h.pinned b)

end Steps
end Face
end Xv6
