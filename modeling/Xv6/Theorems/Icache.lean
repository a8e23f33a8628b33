import Xv6.Icache
import Xv6.Theorems.FsImage

/-! The inode cache is coherent: an inode has one entry, an entry one holder, and what `ilock` returns is what was last
    written to disk. -/

namespace Xv6
open Function (update update_eq_self update_of_ne update_self)
open Outcome (bind_eq_ok ite_panic_eq_ok ite_sleep_eq_ok ok_bind)
open Machine
namespace ISys
variable {Pid : Type} [DecidableEq Pid] {s t : ISys Pid} {p : Pid} {i : InodeIdx} {x : Inode} {l : Option Lock} {q : IPc}
  {ps : List Pid}

/-- Process `p` has the inode busy. -/
def Owner (s : ISys Pid) (p : Pid) (i : InodeIdx) : Prop := s.lock p i ≠ none ∨ ∃ st, s.pc p = .inside i st

/-- The copy of the inode need not be that on disk: its owner has changed it, or frees it. -/
def Stale (s : ISys Pid) (p : Pid) (i : InodeIdx) : Prop := s.lock p i = some .changed ∨ s.pc p = .inside i .last

omit [DecidableEq Pid] in
theorem Stale.owner (h : s.Stale p i) : s.Owner p i := by
  rcases h with h | h
  · exact Or.inl (by rw [h]; nofun)
  · exact Or.inr ⟨_, h⟩

structure Coh (s : ISys Pid) : Prop where
  refs : ∀ i, (s.cache.inode i).ref = (s.holders i).length
  uniq : ∀ i j, 0 < (s.cache.inode i).ref → 0 < (s.cache.inode j).ref → (s.cache.inode j).dev = (s.cache.inode i).dev →
    (s.cache.inode j).inum = (s.cache.inode i).inum → j = i
  sole : ∀ p q i, s.Owner p i → s.Owner q i → p = q
  busy : ∀ i, (s.cache.inode i).busy = true ↔ ∃ p, s.Owner p i
  holds : ∀ p i, s.Owner p i → p ∈ s.holders i
  waits : ∀ p i, s.pc p = .ilock i → p ∈ s.holders i
  apart : ∀ p i st, s.pc p = .inside i st → s.lock p i = none
  root : ∀ i, (s.cache.inode i).valid = true → 0 < (s.cache.inode i).ref → (s.cache.inode i).dev = ROOTDEV
  locked : ∀ p i, s.lock p i ≠ none → (s.cache.inode i).valid = true
  inside : ∀ p i st, s.pc p = .inside i st → st ≠ .fill → (s.cache.inode i).valid = true
  data : ∀ i, (s.cache.inode i).valid = true → 0 < (s.cache.inode i).ref → (∀ p, ¬s.Stale p i) →
    (s.cache.inode i).toDinode = s.cache.ino (s.cache.inode i).inum
  type : ∀ i, (s.cache.inode i).valid = true → 0 < (s.cache.inode i).ref → (∀ p, s.pc p ≠ .inside i .last) →
    (s.cache.ino (s.cache.inode i).inum).type ≠ 0 ∧ (s.cache.inode i).type ≠ 0

/-- Process `p` replaces entry `i` and its references, and has these `lock` and `pc` then. -/
structure Touches (s t : ISys Pid) (p : Pid) (i : InodeIdx) (x : Inode) (l : Option Lock) (q : IPc) (ps : List Pid) : Prop where
  inode : t.cache.inode = update s.cache.inode i x
  lock : t.lock = update s.lock p (update (s.lock p) i l)
  pc : t.pc = update s.pc p q
  holders : t.holders = update s.holders i ps

section Touch
variable (ht : Touches s t p i x l q ps)
include ht

theorem Touches.inode_self : t.cache.inode i = x := by rw [ht.inode, update_self]

theorem Touches.inode_ne {j : InodeIdx} (hj : j ≠ i) : t.cache.inode j = s.cache.inode j := by
  rw [ht.inode, update_of_ne hj]

theorem Touches.holders_self : t.holders i = ps := by rw [ht.holders, update_self]

theorem Touches.holders_ne {j : InodeIdx} (hj : j ≠ i) : t.holders j = s.holders j := by
  rw [ht.holders, update_of_ne hj]

theorem Touches.pc_self : t.pc p = q := by rw [ht.pc, update_self]

theorem Touches.pc_ne {r : Pid} (hr : r ≠ p) : t.pc r = s.pc r := by rw [ht.pc, update_of_ne hr]

theorem Touches.lock_self : t.lock p i = l := by rw [ht.lock, update_self, update_self]

theorem Touches.lock_ne {r : Pid} {j : InodeIdx} (h : r ≠ p ∨ j ≠ i) : t.lock r j = s.lock r j := by
  rw [ht.lock]
  by_cases hr : r = p
  · rw [hr, update_self, update_of_ne (h.resolve_left fun hne => hne hr)]
  · rw [update_of_ne hr]

end Touch

/-- What has to be said of the new entry, and of the other entries if the inodes on disk change. -/
theorem Coh.touch (h : s.Coh) (ht : Touches s t p i x l q ps) (hrefs : x.ref = ps.length)
    (hpc : ∀ j st, s.pc p = .inside j st → j = i) (hq : ∀ j st, q = .inside j st → j = i)
    (hwait : ∀ j, q = .ilock j → p ∈ t.holders j) (hapart : ∀ j st, q = .inside j st → l = none)
    (huniq : 0 < x.ref → ∀ j, j ≠ i → 0 < (s.cache.inode j).ref → ¬((s.cache.inode j).dev = x.dev ∧ (s.cache.inode j).inum = x.inum))
    (hsole : (l ≠ none ∨ ∃ st, q = .inside i st) → ∀ r, r ≠ p → ¬s.Owner r i)
    (hbusy : x.busy = true ↔ (l ≠ none ∨ ∃ st, q = .inside i st) ∨ ∃ r, r ≠ p ∧ s.Owner r i)
    (hholds : ((l ≠ none ∨ ∃ st, q = .inside i st) → p ∈ ps) ∧ ∀ r, r ≠ p → r ∈ s.holders i → r ∈ ps)
    (hroot : x.valid = true → 0 < x.ref → x.dev = ROOTDEV)
    (hvalid : (l ≠ none → x.valid = true) ∧ (∀ st, q = .inside i st → st ≠ .fill → x.valid = true) ∧
      ((∃ r, r ≠ p ∧ s.Owner r i) → (s.cache.inode i).valid = true → x.valid = true))
    (hdata : x.valid = true → 0 < x.ref → l ≠ some .changed → q ≠ .inside i .last → (∀ r, r ≠ p → ¬s.Stale r i) →
      x.toDinode = t.cache.ino x.inum)
    (htype : x.valid = true → 0 < x.ref → q ≠ .inside i .last → (∀ r, r ≠ p → s.pc r ≠ .inside i .last) →
      (t.cache.ino x.inum).type ≠ 0 ∧ x.type ≠ 0)
    (hino : ∀ j, j ≠ i → (s.cache.inode j).valid = true → 0 < (s.cache.inode j).ref → (s.cache.inode j).dev = ROOTDEV →
      t.cache.ino (s.cache.inode j).inum = s.cache.ino (s.cache.inode j).inum) : t.Coh := by
  have hown : t.Owner p i ↔ l ≠ none ∨ ∃ st, q = .inside i st := by rw [Owner, ht.lock_self, ht.pc_self]
  have hown_ne : ∀ r, r ≠ p → ∀ j, t.Owner r j ↔ s.Owner r j := fun r hr j => by
    rw [Owner, Owner, ht.lock_ne (Or.inl hr), ht.pc_ne hr]
  -- Away from `i` the process has its locks only, before and after.
  have hown_p : ∀ j, j ≠ i → (t.Owner p j ↔ s.Owner p j) := fun j hj => by
    rw [Owner, Owner, ht.lock_ne (Or.inr hj), ht.pc_self]
    exact or_congr_right (iff_of_false (fun ⟨st, hst⟩ => hj (hq j st hst)) fun ⟨st, hst⟩ => hj (hpc j st hst))
  have hown_all : ∀ r j, j ≠ i → (t.Owner r j ↔ s.Owner r j) := fun r j hj => by
    by_cases hr : r = p
    · exact hr ▸ hown_p j hj
    · exact hown_ne r hr j
  have hstale : ∀ r j, j ≠ i → (t.Stale r j ↔ s.Stale r j) := fun r j hj => by
    rw [Stale, Stale, ht.lock_ne (Or.inr hj)]
    by_cases hr : r = p
    · subst hr
      rw [ht.pc_self]
      exact or_congr_right (iff_of_false (fun hst => hj (hq j _ hst)) fun hst => hj (hpc j _ hst))
    · rw [ht.pc_ne hr]
  have hlast : ∀ r j, j ≠ i → (t.pc r = .inside j .last ↔ s.pc r = .inside j .last) := fun r j hj => by
    by_cases hr : r = p
    · subst hr
      rw [ht.pc_self]
      exact iff_of_false (fun hst => hj (hq j _ hst)) fun hst => hj (hpc j _ hst)
    · rw [ht.pc_ne hr]
  constructor
  case refs =>
    intro j
    by_cases hj : j = i
    · rw [hj, ht.inode_self, ht.holders_self, hrefs]
    · rw [ht.inode_ne hj, ht.holders_ne hj]
      exact h.refs j
  case uniq =>
    intro j k hj hk hdev hinum
    by_cases hji : j = i <;> by_cases hki : k = i
    · rw [hji, hki]
    · subst hji
      rw [ht.inode_self] at hj hdev hinum
      rw [ht.inode_ne hki] at hk hdev hinum
      exact absurd ⟨hdev, hinum⟩ (huniq hj k hki hk)
    · subst hki
      rw [ht.inode_self] at hk hdev hinum
      rw [ht.inode_ne hji] at hj hdev hinum
      exact absurd ⟨hdev.symm, hinum.symm⟩ (huniq hk j hji hj)
    · rw [ht.inode_ne hji] at hj hdev hinum
      rw [ht.inode_ne hki] at hk hdev hinum
      exact h.uniq j k hj hk hdev hinum
  case sole =>
    intro r r' j hr hr'
    by_cases hj : j = i
    · subst hj
      by_cases hrp : r = p <;> by_cases hrp' : r' = p
      · rw [hrp, hrp']
      · subst hrp
        exact absurd ((hown_ne r' hrp' j).mp hr') (hsole (hown.mp hr) r' hrp')
      · subst hrp'
        exact absurd ((hown_ne r hrp j).mp hr) (hsole (hown.mp hr') r hrp)
      · exact h.sole r r' j ((hown_ne r hrp j).mp hr) ((hown_ne r' hrp' j).mp hr')
    · exact h.sole r r' j ((hown_all r j hj).mp hr) ((hown_all r' j hj).mp hr')
  case busy =>
    intro j
    by_cases hj : j = i
    · subst hj
      rw [ht.inode_self, hbusy]
      constructor
      · rintro (hp | ⟨r, hr, hrj⟩)
        · exact ⟨p, hown.mpr hp⟩
        · exact ⟨r, (hown_ne r hr j).mpr hrj⟩
      · rintro ⟨r, hr⟩
        by_cases hrp : r = p
        · subst hrp
          exact Or.inl (hown.mp hr)
        · exact Or.inr ⟨r, hrp, (hown_ne r hrp j).mp hr⟩
    · rw [ht.inode_ne hj, h.busy j]
      exact exists_congr fun r => (hown_all r j hj).symm
  case holds =>
    intro r j hr
    by_cases hj : j = i
    · subst hj
      rw [ht.holders_self]
      by_cases hrp : r = p
      · subst hrp
        exact hholds.1 (hown.mp hr)
      · exact hholds.2 r hrp (h.holds r j ((hown_ne r hrp j).mp hr))
    · rw [ht.holders_ne hj]
      exact h.holds r j ((hown_all r j hj).mp hr)
  case waits =>
    intro r j hr
    by_cases hrp : r = p
    · subst hrp
      rw [ht.pc_self] at hr
      exact hwait j hr
    · rw [ht.pc_ne hrp] at hr
      by_cases hj : j = i
      · subst hj
        rw [ht.holders_self]
        exact hholds.2 r hrp (h.waits r j hr)
      · rw [ht.holders_ne hj]
        exact h.waits r j hr
  case apart =>
    intro r j st hr
    by_cases hrp : r = p
    · subst hrp
      rw [ht.pc_self] at hr
      obtain rfl := hq j st hr
      rw [ht.lock_self]
      exact hapart j st hr
    · rw [ht.pc_ne hrp] at hr
      rw [ht.lock_ne (Or.inl hrp)]
      exact h.apart r j st hr
  case root =>
    intro j hv hj'
    by_cases hj : j = i
    · subst hj
      rw [ht.inode_self] at hv hj' ⊢
      exact hroot hv hj'
    · rw [ht.inode_ne hj] at hv hj' ⊢
      exact h.root j hv hj'
  case locked =>
    intro r j hr
    by_cases hj : j = i
    · subst hj
      rw [ht.inode_self]
      by_cases hrp : r = p
      · subst hrp
        rw [ht.lock_self] at hr
        exact hvalid.1 hr
      · rw [ht.lock_ne (Or.inl hrp)] at hr
        exact hvalid.2.2 ⟨r, hrp, Or.inl hr⟩ (h.locked r j hr)
    · rw [ht.lock_ne (Or.inr hj)] at hr
      rw [ht.inode_ne hj]
      exact h.locked r j hr
  case inside =>
    intro r j st hr hst
    by_cases hrp : r = p
    · subst hrp
      rw [ht.pc_self] at hr
      obtain rfl := hq j st hr
      rw [ht.inode_self]
      exact hvalid.2.1 st hr hst
    · rw [ht.pc_ne hrp] at hr
      by_cases hj : j = i
      · subst hj
        rw [ht.inode_self]
        exact hvalid.2.2 ⟨r, hrp, Or.inr ⟨st, hr⟩⟩ (h.inside r j st hr hst)
      · rw [ht.inode_ne hj]
        exact h.inside r j st hr hst
  case data =>
    intro j hv hj' hno
    by_cases hj : j = i
    · subst hj
      have hp := hno p
      rw [Stale, ht.lock_self, ht.pc_self, not_or] at hp
      rw [ht.inode_self] at hv hj' ⊢
      refine hdata hv hj' hp.1 hp.2 fun r hr hst => hno r ?_
      rwa [Stale, ht.lock_ne (Or.inl hr), ht.pc_ne hr]
    · rw [ht.inode_ne hj] at hv hj' ⊢
      rw [hino j hj hv hj' (h.root j hv hj')]
      exact h.data j hv hj' fun r hst => hno r ((hstale r j hj).mpr hst)
  case type =>
    intro j hv hj' hno
    by_cases hj : j = i
    · subst hj
      have hp := hno p
      rw [ht.pc_self] at hp
      rw [ht.inode_self] at hv hj' ⊢
      refine htype hv hj' hp fun r hr hst => hno r ?_
      rwa [ht.pc_ne hr]
    · rw [ht.inode_ne hj] at hv hj' ⊢
      rw [hino j hj hv hj' (h.root j hv hj')]
      exact h.type j hv hj' fun r hst => hno r ((hlast r j hj).mpr hst)

theorem Coh.recount (h : s.Coh) (ps : List Pid) (hpc : ∀ j st, s.pc p ≠ .inside j st) (hq : ∀ j st, q ≠ .inside j st)
    (hwait : ∀ j, q = .ilock j → p ∈ t.holders j) (ht : Touches s t p i { s.cache.inode i with ref := ps.length } (s.lock p i) q ps) (hino : t.cache.ino = s.cache.ino)
    (hpos : 0 < ps.length → 0 < (s.cache.inode i).ref)
    (hps : (s.lock p i ≠ none → p ∈ ps) ∧ ∀ r, r ≠ p → r ∈ s.holders i → r ∈ ps) : t.Coh := by
  have hown : s.Owner p i ↔ s.lock p i ≠ none := or_iff_left fun ⟨st, hst⟩ => hpc i st hst
  have hself : (s.lock p i ≠ none ∨ ∃ st, q = .inside i st) ↔ s.Owner p i := by
    rw [hown]
    exact or_iff_left fun ⟨st, hst⟩ => hq i st hst
  refine h.touch ht rfl (fun j st hst => absurd hst (hpc j st)) (fun j st hst => absurd hst (hq j st))
    hwait (fun j st hst => absurd hst (hq j st)) (fun hx j hj hj' hat => ?_) (fun hp r hr hown' => ?_)
    ?_ ⟨fun hp => hps.1 (hown.mp (hself.mp hp)), hps.2⟩ (fun hv hx => h.root i hv (hpos hx))
    ⟨fun hl => h.locked p i hl, fun st hst => absurd hst (hq i st), fun _ hv => hv⟩ (fun hv hx hl _ hno => ?_) (fun hv hx _ hno => ?_)
    fun j _ _ _ _ => by rw [hino]
  · exact hj (h.uniq i j (hpos hx) hj' hat.1 hat.2)
  · exact hr (h.sole r p i hown' (hself.mp hp))
  · rw [hself]
    refine (h.busy i).trans ⟨fun ⟨r, hr⟩ => ?_, fun hor => ?_⟩
    · by_cases hrp : r = p
      · exact Or.inl (hrp ▸ hr)
      · exact Or.inr ⟨r, hrp, hr⟩
    · rcases hor with hp | ⟨r, -, hr⟩
      · exact ⟨p, hp⟩
      · exact ⟨r, hr⟩
  · rw [hino]
    refine h.data i hv (hpos hx) fun r hst => ?_
    by_cases hrp : r = p
    · subst hrp
      rcases hst with hst | hst
      · exact hl hst
      · exact hpc i _ hst
    · exact hno r hrp hst
  · rw [hino]
    refine h.type i hv (hpos hx) fun r hst => ?_
    by_cases hrp : r = p
    · exact hpc i _ (hrp ▸ hst)
    · exact hno r hrp hst

theorem Coh.work (h : s.Coh) (halone : ∀ r, r ≠ p → ¬s.Owner r i) (hmem : p ∈ s.holders i)
    (ht : Touches s t p i x l q (s.holders i)) (hsame : x.ref = (s.cache.inode i).ref ∧ x.dev = (s.cache.inode i).dev ∧
      x.inum = (s.cache.inode i).inum)
    (hpc : ∀ j st, s.pc p = .inside j st → j = i) (hq : q = .idle ∨ l = none ∧ ∃ st, q = .inside i st)
    (hbusy : x.busy = true ↔ l ≠ none ∨ ∃ st, q = .inside i st)
    (hvalid : (l ≠ none → x.valid = true) ∧ ∀ st, q = .inside i st → st ≠ .fill → x.valid = true)
    (hroot : x.valid = true → x.dev = ROOTDEV)
    (hdata : x.valid = true → l ≠ some .changed → q ≠ .inside i .last → x.toDinode = t.cache.ino x.inum)
    (htype : x.valid = true → q ≠ .inside i .last → (t.cache.ino x.inum).type ≠ 0 ∧ x.type ≠ 0)
    (hino : t.cache.ino = s.cache.ino ∨
      (s.cache.inode i).dev = ROOTDEV ∧ ∀ n, n ≠ (s.cache.inode i).inum → t.cache.ino n = s.cache.ino n) : t.Coh := by
  have hpos : 0 < (s.cache.inode i).ref := by
    rw [h.refs i]
    exact List.length_pos_of_mem hmem
  have hqi : ∀ j st, q = .inside j st → j = i ∧ l = none := fun j st hst => by
    rcases hq with hq | ⟨hl, st', hst'⟩
    · rw [hq] at hst
      cases hst
    · rw [hst'] at hst
      cases hst
      exact ⟨rfl, hl⟩
  refine h.touch ht (hsame.1.trans (h.refs i)) hpc (fun j st hst => (hqi j st hst).1) (fun j hj => ?_)
    (fun j st hst => (hqi j st hst).2) (fun _ j hj hj' hat => ?_) (fun _ => halone) ?_ ⟨fun _ => hmem, fun _ _ hr => hr⟩
    (fun hv _ => hroot hv) ⟨hvalid.1, hvalid.2, fun ⟨r, hr, hown⟩ => absurd hown (halone r hr)⟩
    (fun hv _ hl hlast _ => hdata hv hl hlast) (fun hv _ hlast _ => htype hv hlast) fun j hj _ hj' hdev => ?_
  · rcases hq with hq | ⟨-, st, hst⟩
    · rw [hq] at hj
      cases hj
    · rw [hst] at hj
      cases hj
  · exact hj (h.uniq i j hpos hj' (hat.1.trans hsame.2.1) (hat.2.trans hsame.2.2))
  · rw [hbusy]
    exact (or_iff_left fun ⟨r, hr, hown⟩ => halone r hr hown).symm
  · rcases hino with hino | ⟨hroot', hino⟩
    · rw [hino]
    · exact hino _ fun heq => hj (h.uniq i j hpos hj' (hdev.trans hroot'.symm) heq)

/-! ### Steps -/

omit [DecidableEq Pid] in
theorem Coh.alone (h : s.Coh) (hp : s.Owner p i) (r : Pid) (hr : r ≠ p) : ¬s.Owner r i := fun hown => hr (h.sole r p i hown hp)

omit [DecidableEq Pid] in
theorem Coh.free (h : s.Coh) (hb : (s.cache.inode i).busy = false) (r : Pid) : ¬s.Owner r i := fun hown => by
  rw [(h.busy i).mpr ⟨r, hown⟩] at hb
  cases hb

omit [DecidableEq Pid] in
theorem Coh.lock_eq_none (h : s.Coh) (hb : (s.cache.inode i).busy = false) (p : Pid) : s.lock p i = none := by
  by_contra hl
  exact h.free hb p (Or.inl hl)

omit [DecidableEq Pid] in
theorem Coh.ne_last (h : s.Coh) (hp : s.Owner p i) (hpc : s.pc p ≠ .inside i .last) (r : Pid) : s.pc r ≠ .inside i .last := fun hr =>
  hpc (h.sole r p i (Or.inr ⟨_, hr⟩) hp ▸ hr)

omit [DecidableEq Pid] in
theorem Coh.not_stale (h : s.Coh) (hp : s.Owner p i) (hst : ¬s.Stale p i) (r : Pid) : ¬s.Stale r i := fun hr =>
  hst (h.sole r p i hr.owner hp ▸ hr)

omit [DecidableEq Pid] in
theorem Coh.pos_of_mem (h : s.Coh) (hp : p ∈ s.holders i) : 0 < (s.cache.inode i).ref := by
  rw [h.refs i]
  exact List.length_pos_of_mem hp

theorem lock_same (s : ISys Pid) (p : Pid) (i : InodeIdx) : s.lock = update s.lock p (update (s.lock p) i (s.lock p i)) := by
  rw [update_eq_self, update_eq_self]

theorem Coh.goto (h : s.Coh) (hpc : ∀ j st, s.pc p ≠ .inside j st) (hq : ∀ j st, q ≠ .inside j st)
    (hwait : ∀ j, q = .ilock j → p ∈ s.holders j) : (s.goto p q).Coh := by
  refine h.recount (i := 0) (s.holders 0) hpc hq hwait ⟨?_, lock_same s p 0, rfl, ?_⟩ rfl (fun hpos => h.refs 0 ▸ hpos)
    ⟨fun hl => h.holds p 0 (Or.inl hl), fun _ _ hr => hr⟩
  · rw [← h.refs 0]
    exact (update_eq_self 0 _).symm
  · exact (update_eq_self 0 _).symm

omit [DecidableEq Pid] in
/-- An inode that is free on disk is written, as nobody can have a copy to rely on. -/
theorem Coh.setIno (h : s.Coh) {inum : Nat} (hfree : (s.cache.ino inum).type = 0) (d : Dinode) :
    Coh { s with cache := s.cache.setIno inum d } := by
  have hne : ∀ j, (s.cache.inode j).valid = true → 0 < (s.cache.inode j).ref → (∀ r, s.pc r ≠ .inside j .last) →
      (s.cache.inode j).inum ≠ inum := fun j hv hj hno heq => (h.type j hv hj hno).1 (heq ▸ hfree)
  refine { h with data := fun j hv hj hno => ?_, type := fun j hv hj hno => ?_ }
  · have hno' : ∀ r, ¬s.Stale r j := hno
    refine (h.data j hv hj hno).trans (update_of_ne (hne j hv hj fun r hr => hno' r (Or.inr hr)) _ _).symm
  · have hupd : update s.cache.ino inum d (s.cache.inode j).inum = s.cache.ino (s.cache.inode j).inum :=
      update_of_ne (hne j hv hj hno) _ _
    show (update s.cache.ino inum d (s.cache.inode j).inum).type ≠ 0 ∧ _
    rw [hupd]
    exact h.type j hv hj hno

theorem iget_cases {c c' : Icache} {dev inum : Nat} (h : c.iget dev inum = .ok (i, c')) :
    (0 < (c.inode i).ref ∧ (c.inode i).dev = dev ∧ (c.inode i).inum = inum ∧
      c' = c.setInode i { c.inode i with ref := (c.inode i).ref + 1 }) ∨
    ((∀ j, 0 < (c.inode j).ref → ¬((c.inode j).dev = dev ∧ (c.inode j).inum = inum)) ∧ (c.inode i).ref = 0 ∧
      c' = c.setInode i { c.inode i with dev := dev, inum := inum, ref := 1, busy := false, valid := false }) := by
  unfold Icache.iget at h
  dsimp only at h
  split at h
  · rename_i j hj
    have hhit := List.find?_some hj
    simp only [decide_eq_true_eq] at hhit
    cases h
    exact Or.inl ⟨hhit.1, hhit.2.1, hhit.2.2, rfl⟩
  · rename_i hnone
    have hmiss : ∀ j, 0 < (c.inode j).ref → ¬((c.inode j).dev = dev ∧ (c.inode j).inum = inum) := fun j hj hat => by
      have := List.find?_eq_none.mp hnone j (List.mem_finRange j)
      exact this (decide_eq_true ⟨hj, hat.1, hat.2⟩)
    split at h
    · rename_i j hj
      cases h
      exact Or.inr ⟨hmiss, by simpa using List.find?_some hj, rfl⟩
    · cases h

theorem Coh.iget {dev inum : Nat} (h : s.Coh) (hpc : ∀ j st, s.pc p ≠ .inside j st) (hs : s.iget p dev inum = .ok t) : t.Coh := by
  obtain ⟨⟨i, c⟩, hget, hs⟩ := bind_eq_ok.mp hs
  cases hs
  rcases iget_cases hget with ⟨hpos, -, -, rfl⟩ | ⟨hmiss, hzero, rfl⟩
  · refine h.recount (q := .idle) (p :: s.holders i) hpc nofun nofun ⟨?_, lock_same s p i, rfl, rfl⟩ rfl (fun _ => hpos)
      ⟨fun _ => List.mem_cons_self, fun r _ hr => List.mem_cons_of_mem p hr⟩
    rw [List.length_cons, ← h.refs i]
    rfl
  · have hnil : s.holders i = [] := List.length_eq_zero_iff.mp ((h.refs i).symm.trans hzero)
    have hno : ∀ r, ¬s.Owner r i := fun r hr => by
      have := h.holds r i hr
      rw [hnil] at this
      cases this
    have hl : s.lock p i = none := by
      by_contra hl
      exact hno p (Or.inl hl)
    have hown : ¬(s.lock p i ≠ none ∨ ∃ st, IPc.idle = .inside i st) := fun hor => by
      rcases hor with hor | ⟨st, hst⟩
      · exact hor hl
      · cases hst
    refine h.touch (x := { s.cache.inode i with dev := dev, inum := inum, ref := 1, busy := false, valid := false }) (q := .idle)
      ⟨rfl, lock_same s p i, rfl, rfl⟩ (by rw [hnil]; rfl) (fun j st hst => absurd hst (hpc j st)) nofun nofun nofun
      (fun _ j _ hj => hmiss j hj) (fun hor => absurd hor hown)
      (iff_of_false nofun fun hor => ?_) ⟨fun hor => absurd hor hown, fun r _ hr => ?_⟩ nofun ⟨fun hne => absurd hl hne, nofun, ?_⟩ nofun nofun
      fun _ _ _ _ _ => rfl
    · rcases hor with hor | ⟨r, -, hr⟩
      · exact hown hor
      · exact hno r hr
    · rw [hnil] at hr
      cases hr
    · rintro ⟨r, -, hr⟩
      exact absurd hr (hno r)

theorem Coh.drop (h : s.Coh) (hpc : s.pc p = .idle) (hspare : s.Spare p i) (ps : List Pid)
    (hps : ∀ r, r ∈ (s.holders i).erase p → r ∈ ps) :
    Coh ({ s with cache := s.cache.setInode i { s.cache.inode i with ref := ps.length } }.setHolders i ps) := by
  refine h.recount (q := .idle) (p := p) ps (by rw [hpc]; exact fun _ _ => nofun) nofun nofun ⟨rfl, lock_same s p i, ?_, rfl⟩ rfl
    (fun _ => h.pos_of_mem hspare.1) ⟨fun hl => hps p ?_, fun r hr hmem => hps r ((List.mem_erase_of_ne hr).mpr hmem)⟩
  · rw [← hpc]
    exact (update_eq_self p _).symm
  · have := hspare.2 hl
    exact List.count_pos_iff.mp (by rw [List.count_erase_self]; omega)

theorem bread_ok {c : Icache} {dev inum : Nat} {d : Dinode} (h : c.bread dev inum = .ok d) : dev = ROOTDEV ∧ d = c.ino inum := by
  unfold Icache.bread at h
  split_ifs at h with h₁ h₂
  cases h
  exact ⟨by simpa using h₁, rfl⟩

theorem iupdate_ok {c c' : Icache} (h : c.iupdate i = .ok c') :
    (c.inode i).dev = ROOTDEV ∧ c' = c.setIno (c.inode i).inum (c.inode i).toDinode := by
  obtain ⟨d, hd, h⟩ := bind_eq_ok.mp h
  cases h
  exact ⟨(bread_ok hd).1, rfl⟩

theorem Coh.take (h : s.Coh) (hpc : ∀ j st, s.pc p ≠ .inside j st) (hb : ¬(s.cache.inode i).busy = true) (hmem : p ∈ s.holders i) {st : Inside}
    (hv : st ≠ .fill → (s.cache.inode i).valid = true) :
    Coh ({ s with cache := s.cache.setInode i { s.cache.inode i with busy := true } }.goto p (.inside i st)) := by
  have hb : (s.cache.inode i).busy = false := by simpa using hb
  have hfree := h.free hb
  have hpos := h.pos_of_mem hmem
  refine h.work (l := none) (fun r _ => hfree r) hmem
    ⟨rfl, h.lock_eq_none hb p ▸ lock_same s p i, rfl, (update_eq_self i _).symm⟩ ⟨rfl, rfl, rfl⟩
    (fun j st hst => absurd hst (hpc j st)) (Or.inr ⟨rfl, _, rfl⟩) (iff_of_true rfl (Or.inr ⟨_, rfl⟩))
    ⟨fun hne => absurd rfl hne, fun st' hst hne => ?_⟩ (fun hv => h.root i hv hpos) (fun hv _ _ => ?_) (fun hv _ => ?_) (Or.inl rfl)
  · cases hst
    exact hv hne
  · exact h.data i hv hpos fun r hst => hfree r hst.owner
  · exact h.type i hv hpos fun r hst => hfree r (Or.inr ⟨_, hst⟩)

theorem Coh.fill (h : s.Coh) {c : Icache} (hp : s.pc p = .inside i .fill) (hc : s.cache.fill i = .ok c) :
    Coh ({ s with cache := c }.setLock p i (some .clean) |>.goto p .idle) ∧
      (c.inode i).toDinode = c.ino (c.inode i).inum ∧ (c.inode i).valid = true := by
  have hown : s.Owner p i := Or.inr ⟨_, hp⟩
  have hmem := h.holds p i hown
  have hpos := h.pos_of_mem hmem
  have hpc : ∀ j st, s.pc p = .inside j st → j = i := fun j st hst => by
    rw [hp] at hst
    cases hst
    rfl
  have hbusy := (h.busy i).mpr ⟨p, hown⟩
  have hstale := h.not_stale hown (by simp [Stale, h.apart p i _ hp, hp])
  unfold Icache.fill at hc
  dsimp only at hc
  split at hc
  · rename_i hv
    cases hc
    have hdata := h.data i hv hpos hstale
    refine ⟨?_, hdata, hv⟩
    refine h.work (x := s.cache.inode i) (l := some .clean) (q := .idle) (h.alone hown) hmem
      ⟨(update_eq_self i _).symm, rfl, rfl, (update_eq_self i _).symm⟩ ⟨rfl, rfl, rfl⟩ hpc (Or.inl rfl)
      (iff_of_true hbusy (Or.inl nofun)) ⟨fun _ => hv, nofun⟩ (fun hv => h.root i hv hpos) (fun _ _ _ => hdata)
      (fun hv _ => h.type i hv hpos fun r hr => hstale r (Or.inr hr)) (Or.inl rfl)
  · obtain ⟨d, hd, hc⟩ := bind_eq_ok.mp hc
    obtain ⟨htype, hc⟩ := ite_panic_eq_ok.mp hc
    cases hc
    obtain ⟨hdev, rfl⟩ := bread_ok hd
    refine ⟨?_, by simp [Icache.setInode], by simp [Icache.setInode]⟩
    refine h.work (l := some .clean) (q := .idle) (h.alone hown) hmem
      ⟨rfl, rfl, rfl, (update_eq_self i _).symm⟩ ⟨rfl, rfl, rfl⟩ hpc (Or.inl rfl)
      (iff_of_true hbusy (Or.inl nofun)) ⟨fun _ => rfl, nofun⟩ (fun _ => hdev) (fun _ _ _ => rfl)
      (fun _ _ => ⟨htype, htype⟩) (Or.inl rfl)

theorem Coh.put (h : s.Coh) {c : Icache} {st st' : Inside} {d : Dinode} (hp : s.pc p = .inside i st) (hst : st ≠ .fill)
    (hd : st' ≠ .last → d.type ≠ 0) (hc : (s.cache.setInode i { s.cache.inode i with toDinode := d }).iupdate i = .ok c) :
    Coh ({ s with cache := c }.goto p (.inside i st')) := by
  have hown : s.Owner p i := Or.inr ⟨_, hp⟩
  have hmem := h.holds p i hown
  have hl := h.apart p i st hp
  have hself : (s.cache.setInode i { s.cache.inode i with toDinode := d }).inode i = { s.cache.inode i with toDinode := d } :=
    update_self ..
  obtain ⟨hdev, rfl⟩ := iupdate_ok hc
  rw [hself] at hdev ⊢
  have hv := h.inside p i st hp hst
  refine h.work (l := none) (h.alone hown) hmem ⟨rfl, hl ▸ lock_same s p i, rfl, (update_eq_self i _).symm⟩ ⟨rfl, rfl, rfl⟩
    (fun j st₁ hst₁ => ?_) (Or.inr ⟨rfl, _, rfl⟩) (iff_of_true ((h.busy i).mpr ⟨p, hown⟩) (Or.inr ⟨_, rfl⟩))
    ⟨fun hne => absurd rfl hne, fun _ _ _ => hv⟩ (fun _ => hdev) (fun _ _ _ => ?_) (fun _ hlast => ?_)
    (Or.inr ⟨hdev, fun n hn => update_of_ne hn _ _⟩)
  · rw [hp] at hst₁
    cases hst₁
    rfl
  · exact (update_self (s.cache.inode i).inum d s.cache.ino).symm
  · have htype : d.type ≠ 0 := hd fun heq => hlast (heq ▸ rfl)
    have hnew : update s.cache.ino (s.cache.inode i).inum d (s.cache.inode i).inum = d := update_self ..
    exact ⟨by rw [← hnew] at htype; exact htype, htype⟩

theorem Coh.last (h : s.Coh) (hp : s.pc p = .inside i .last) :
    Coh ({ s with cache := s.cache.setInode i { s.cache.inode i with busy := false, valid := false, ref := (s.cache.inode i).ref - 1 } }
      |>.setHolders i ((s.holders i).erase p) |>.goto p .idle) := by
  have hown : s.Owner p i := Or.inr ⟨_, hp⟩
  have hl := h.apart p i _ hp
  have hmem := h.holds p i hown
  have hno : ¬((none : Option Lock) ≠ none ∨ ∃ st, IPc.idle = .inside i st) := by
    rintro (hne | ⟨st, hst⟩)
    · exact hne rfl
    · cases hst
  refine h.touch (l := none) (q := .idle) ⟨rfl, hl ▸ lock_same s p i, rfl, rfl⟩ ?_ (fun j st hst => ?_) nofun nofun nofun
    (fun _ j hj hj' hat => ?_) (fun hor => absurd hor hno) (iff_of_false nofun ?_)
    ⟨fun hor => absurd hor hno, fun r hr hr' => (List.mem_erase_of_ne hr).mpr hr'⟩ nofun
    ⟨fun hne => absurd rfl hne, nofun, fun ⟨r, hr, hr'⟩ => absurd hr' (h.alone hown r hr)⟩ nofun nofun fun _ _ _ _ _ => rfl
  · rw [List.length_erase_of_mem hmem, ← h.refs i]
  · rw [hp] at hst
    cases hst
    rfl
  · exact hj (h.uniq i j (h.pos_of_mem hmem) hj' hat.1 hat.2)
  · rintro (hor | ⟨r, hr, hr'⟩)
    · exact hno hor
    · exact h.alone hown r hr hr'

/-- What process `p` does to an inode that it has locked: `d` and `l` are what becomes of the copy and of the lock. -/
theorem Coh.useLock (h : s.Coh) (hpc : s.pc p = .idle) (hl : s.lock p i ≠ none) {c : Icache} {d : Dinode} {b : Bool} {l : Option Lock}
    (hc : c.inode = update s.cache.inode i { s.cache.inode i with toDinode := d, busy := b })
    (hb : b = true ↔ l ≠ none) (hino : c.ino = s.cache.ino ∨ (s.cache.inode i).dev = ROOTDEV ∧ c.ino = update s.cache.ino (s.cache.inode i).inum d)
    (hd : d.type ≠ 0) (hdata : l ≠ some .changed → d = c.ino (s.cache.inode i).inum) : Coh ({ s with cache := c }.setLock p i l) := by
  have hown : s.Owner p i := Or.inl hl
  have hmem := h.holds p i hown
  have hpos := h.pos_of_mem hmem
  have hv := h.locked p i hl
  have htype := h.type i hv hpos (h.ne_last hown (by rw [hpc]; nofun))
  refine h.work (q := .idle) (l := l) (h.alone hown) hmem ⟨hc, rfl, ?_, (update_eq_self i _).symm⟩ ⟨rfl, rfl, rfl⟩ (fun j st hst => ?_)
    (Or.inl rfl) (hb.trans ⟨Or.inl, fun hor => ?_⟩) ⟨fun _ => hv, nofun⟩ (fun hv => h.root i hv hpos) (fun _ hne _ => hdata hne)
    (fun _ _ => ⟨?_, hd⟩) ?_
  · rw [← hpc]
    exact (update_eq_self p _).symm
  · rw [hpc] at hst
    cases hst
  · rcases hor with hor | ⟨st, hst⟩
    · exact hor
    · cases hst
  · rcases hino with hino | ⟨-, hino⟩
    · show (c.ino (s.cache.inode i).inum).type ≠ 0
      rw [hino]
      exact htype.1
    · show (c.ino (s.cache.inode i).inum).type ≠ 0
      rw [hino, update_self]
      exact hd
  · exact hino.imp_right fun hino => ⟨hino.1, fun n hn => by
      show c.ino n = _
      rw [hino.2, update_of_ne hn]⟩

/-- No process sets the type of an inode to 0 by itself; only `iput` does. -/
def KeepsType : Act Pid → Prop
  | .modify _ _ d => d.type ≠ 0
  | _ => True

instance : DecidablePred (KeepsType : Act Pid → Prop) := fun a => by
  cases a <;> unfold KeepsType <;> infer_instance

theorem Coh.go (h : s.Coh) (hs : s.go p (s.pc p) = .ok t) : t.Coh := by
  cases hpc : s.pc p with
  | idle =>
    rw [hpc] at hs
    cases hs
  | ialloc dev type inum =>
    rw [hpc] at hs
    dsimp only [ISys.go] at hs
    split at hs
    · obtain ⟨d, hd, hs⟩ := bind_eq_ok.mp hs
      obtain ⟨-, rfl⟩ := bread_ok hd
      have hout : ∀ j st, s.pc p ≠ .inside j st := by
        rw [hpc]
        exact fun _ _ => nofun
      split at hs
      · rename_i hfree
        cases hs
        exact (h.setIno hfree { type := type }).goto hout nofun nofun
      · cases hs
        exact h.goto hout nofun nofun
    · cases hs
  | iget dev inum =>
    rw [hpc] at hs
    exact h.iget (by rw [hpc]; exact fun _ _ => nofun) hs
  | ilock i =>
    rw [hpc] at hs
    obtain ⟨c, hc, hs⟩ := bind_eq_ok.mp hs
    cases hs
    unfold Icache.acquire at hc
    split at hc
    · cases hc
    · cases hc
      exact h.take (by rw [hpc]; exact fun _ _ => nofun) ‹_› (h.waits p i hpc) fun hne => absurd rfl hne
  | inside i st =>
    rw [hpc] at hs
    have hown : s.Owner p i := Or.inr ⟨st, hpc⟩
    cases st with
    | fill =>
      obtain ⟨c, hc, hs⟩ := bind_eq_ok.mp hs
      cases hs
      exact (h.fill hpc hc).1
    | itrunc =>
      obtain ⟨c, hc, hs⟩ := bind_eq_ok.mp hs
      cases hs
      have hlast := h.ne_last hown (by rw [hpc]; nofun)
      exact h.put (d := { (s.cache.inode i).toDinode with size := 0, addrs := fun _ => 0 }) hpc nofun
        (fun _ => (h.type i (h.inside p i _ hpc nofun) (h.pos_of_mem (h.holds p i hown)) hlast).2) hc
    | free =>
      obtain ⟨c, hc, hs⟩ := bind_eq_ok.mp hs
      cases hs
      exact h.put (d := { (s.cache.inode i).toDinode with type := 0 }) hpc nofun (fun hne => absurd rfl hne) hc
    | last =>
      cases hs
      exact h.last hpc

theorem Coh.iput (h : s.Coh) (hpc : s.pc p = .idle) (hspare : s.Spare p i) (hs : s.iput p i = .ok t) : t.Coh := by
  unfold ISys.iput at hs
  dsimp only at hs
  split at hs
  · rename_i hfree
    obtain ⟨hb, hs⟩ := ite_panic_eq_ok.mp hs
    cases hs
    exact h.take (by rw [hpc]; exact fun _ _ => nofun) hb hspare.1 fun _ => hfree.2.1
  · cases hs
    have hlen : ((s.holders i).erase p).length = (s.cache.inode i).ref - 1 := by
      rw [List.length_erase_of_mem hspare.1, ← h.refs i]
    have hdrop := h.drop hpc hspare ((s.holders i).erase p) fun r hr => hr
    rwa [hlen] at hdrop

theorem Coh.step (h : s.Coh) {a : Act Pid} (ha : KeepsType a) (hs : ISys.step s a = .ok t) : t.Coh := by
  cases a with
  | ialloc p dev type =>
    obtain ⟨hpc, hs⟩ := ite_sleep_eq_ok.mp hs
    cases hs
    exact h.goto (by rw [hpc]; exact fun _ _ => nofun) nofun nofun
  | iget p dev inum =>
    obtain ⟨hpc, hs⟩ := ite_sleep_eq_ok.mp hs
    exact h.iget (by rw [hpc]; exact fun _ _ => nofun) hs
  | idup p i =>
    obtain ⟨hp, hs⟩ := ite_sleep_eq_ok.mp hs
    cases hs
    refine h.recount (q := .idle) (p :: s.holders i) (by rw [hp.1]; exact fun _ _ => nofun) nofun nofun ⟨?_, lock_same s p i, ?_, rfl⟩ rfl
      (fun _ => h.pos_of_mem hp.2) ⟨fun _ => List.mem_cons_self, fun r _ hr => List.mem_cons_of_mem p hr⟩
    · rw [List.length_cons, ← h.refs i]
      rfl
    · rw [← hp.1]
      exact (update_eq_self p _).symm
  | ilock p i =>
    obtain ⟨hp, hs⟩ := ite_sleep_eq_ok.mp hs
    obtain ⟨-, hs⟩ := ite_panic_eq_ok.mp hs
    cases hs
    refine h.goto (by rw [hp.1]; exact fun _ _ => nofun) nofun fun j hj => ?_
    cases hj
    exact hp.2
  | modify p i d =>
    obtain ⟨hp, hs⟩ := ite_sleep_eq_ok.mp hs
    cases hs
    have hb := (h.busy i).mpr ⟨p, Or.inl hp.2⟩
    refine h.useLock hp.1 hp.2 (b := true) (d := d) (l := some .changed) ?_ (iff_of_true rfl nofun) (Or.inl rfl) ha fun hne => absurd rfl hne
    rw [← hb]
    rfl
  | iupdate p i =>
    obtain ⟨hp, hs⟩ := ite_sleep_eq_ok.mp hs
    obtain ⟨c, hc, hs⟩ := bind_eq_ok.mp hs
    cases hs
    obtain ⟨hdev, rfl⟩ := iupdate_ok hc
    have hown : s.Owner p i := Or.inl hp.2
    have hb := (h.busy i).mpr ⟨p, hown⟩
    have hlast := h.ne_last hown (by rw [hp.1]; nofun)
    refine h.useLock hp.1 hp.2 (b := true) (d := (s.cache.inode i).toDinode) (l := some .clean) ?_ (iff_of_true rfl nofun)
      (Or.inr ⟨hdev, rfl⟩) (h.type i (h.locked p i hp.2) (h.pos_of_mem (h.holds p i hown)) hlast).2
      fun _ => (update_self (s.cache.inode i).inum _ s.cache.ino).symm
    rw [← hb]
    exact (update_eq_self i _).symm
  | iunlock p i =>
    obtain ⟨hp, hs⟩ := ite_sleep_eq_ok.mp hs
    obtain ⟨c, hc, hs⟩ := bind_eq_ok.mp hs
    cases hs
    obtain ⟨-, hc⟩ := ite_panic_eq_ok.mp hc
    cases hc
    have hl : s.lock p i ≠ none := by
      rw [hp.2]
      nofun
    have hstale := h.not_stale (Or.inl hl) (by simp [Stale, hp.1, hp.2])
    have hv := h.locked p i hl
    have hpos := h.pos_of_mem (h.holds p i (Or.inl hl))
    exact h.useLock hp.1 hl (b := false) (d := (s.cache.inode i).toDinode) (l := none) rfl (iff_of_false nofun fun hne => hne rfl)
      (Or.inl rfl) (h.type i hv hpos fun r hr => hstale r (Or.inr hr)).2 fun _ => h.data i hv hpos hstale
  | iput p i =>
    obtain ⟨hp, hs⟩ := ite_sleep_eq_ok.mp hs
    exact h.iput hp.1 hp.2 hs
  | pass p q i =>
    obtain ⟨hp, hs⟩ := ite_sleep_eq_ok.mp hs
    cases hs
    have hpos := h.pos_of_mem hp.2.1
    have hlen : (q :: (s.holders i).erase p).length = (s.cache.inode i).ref := by
      rw [List.length_cons, List.length_erase_of_mem hp.2.1, ← h.refs i]
      omega
    have hdrop := h.drop hp.1 hp.2 (q :: (s.holders i).erase p) fun r hr => List.mem_cons_of_mem q hr
    rw [hlen] at hdrop
    have hsame : s.cache.setInode i (s.cache.inode i) = s.cache := by
      rw [Icache.setInode, update_eq_self]
    rwa [show ({ s.cache.inode i with ref := (s.cache.inode i).ref } : Inode) = s.cache.inode i from rfl, hsame] at hdrop
  | go p => exact h.go hs

omit [DecidableEq Pid] in
theorem coh_start (ino : Nat → Dinode) (sb : Superblock) (disksize : Nat) : (start ino sb disksize : ISys Pid).Coh where
  refs := fun _ => rfl
  uniq := fun _ _ hpos => absurd hpos (lt_irrefl 0)
  sole := fun _ _ _ hown => absurd hown (not_or.mpr ⟨fun hne => hne rfl, nofun⟩)
  busy := fun _ => iff_of_false nofun fun ⟨_, hown⟩ => absurd hown (not_or.mpr ⟨fun hne => hne rfl, nofun⟩)
  holds := fun _ _ hown => absurd hown (not_or.mpr ⟨fun hne => hne rfl, nofun⟩)
  waits := nofun
  apart := nofun
  root := nofun
  locked := fun _ _ hne => absurd rfl hne
  inside := nofun
  data := nofun
  type := nofun

/-- If only `iput` ever clears the type of an inode: no inode has two entries in use, no entry is busy for two processes, and
    when `ilock` returns, the copy is what is on disk. -/
theorem icache_coherent {ino : Nat → Dinode} {sb : Superblock} {disksize : Nat}
    (h : Reachable step (fun _ a => KeepsType a) (fun s => s = start ino sb disksize) s) :
    (∀ i j, 0 < (s.cache.inode i).ref → 0 < (s.cache.inode j).ref → (s.cache.inode j).dev = (s.cache.inode i).dev →
      (s.cache.inode j).inum = (s.cache.inode i).inum → j = i) ∧
    (∀ p q i, s.Owner p i → s.Owner q i → p = q) ∧ (∀ i, (s.cache.inode i).busy = true ↔ ∃ p, s.Owner p i) ∧
    ∀ p i t, s.pc p = .inside i .fill → step s (.go p) = .ok t →
      t.lock p i = some .clean ∧ (t.cache.inode i).toDinode = t.cache.ino (t.cache.inode i).inum := by
  have hcoh : s.Coh := h.invariant (fun s hs => hs ▸ coh_start ino sb disksize) fun s a t hs ha hstep => hs.step ha hstep
  refine ⟨hcoh.uniq, hcoh.sole, hcoh.busy, fun p i t hp hs => ?_⟩
  dsimp only [ISys.step] at hs
  rw [hp] at hs
  obtain ⟨c, hc, hs⟩ := bind_eq_ok.mp hs
  cases hs
  exact ⟨by simp [setLock, ISys.goto], (hcoh.fill hp hc).2.1⟩

/-! ### Two runs -/

/-- A disk with ten inodes, all free. -/
abbrev blankDisk : ISys Bool :=
  start (fun _ => { type := 0 }) ⟨1000, 900, 10, 30, 2, 32, 58⟩ 1000

/-- One process frees inode 1 while another allocates it and finds the dying entry. -/
theorem icache_coherent_realloc : ∃ s t : ISys Bool,
    Reachable step (fun _ a => KeepsType a) (fun s => s = blankDisk) s ∧ s.pc true = .inside 0 .fill ∧
    step s (.go true) = .ok t ∧ (t.cache.inode 0).toDinode = t.cache.ino (t.cache.inode 0).inum := by
  obtain ⟨s, hs, hpc, t, ht⟩ : ∃ s, runList (fun s a => if decide (KeepsType a) then step s a else .sleep) blankDisk
      [.ialloc false 1 2, .go false, .go false, .ilock false 0, .go false, .go false, .iunlock false 0, .iput false 0, .go false,
        .go false, .ialloc true 1 3, .go true, .go true, .ilock true 0, .go false, .go true] = .ok s ∧
      s.pc true = .inside 0 .fill ∧ ∃ t, step s (.go true) = .ok t := by
    decide +kernel
  have hreach : Reachable step (fun _ a => KeepsType a) (fun s : ISys Bool => s = blankDisk) s :=
    .runGuarded (fun _ _ ha => of_decide_eq_true ha) (.init rfl) hs
  exact ⟨s, t, hreach, hpc, ht, ((icache_coherent hreach).2.2.2 true 0 t hpc ht).2⟩

/-- A process clears the type of an inode by itself; the next one to allocate the inode gets the old copy. -/
theorem cleared_type_is_stale : ∃ s t : ISys Bool,
    Reachable step (fun _ _ => True) (fun s => s = blankDisk) s ∧ s.pc true = .inside 0 .fill ∧ step s (.go true) = .ok t ∧
    t.lock true 0 = some .clean ∧ (t.cache.inode 0).inum = 1 ∧ (t.cache.inode 0).type = 0 ∧ (t.cache.ino 1).type = 3 := by
  obtain ⟨s, hs, hpc, t, ht, hlock, hinum, htype, hino⟩ : ∃ s, runList step blankDisk
      [.ialloc false 1 2, .go false, .go false, .ilock false 0, .go false, .go false, .modify false 0 { type := 0 }, .iupdate false 0,
        .iunlock false 0, .ialloc true 1 3, .go true, .go true, .ilock true 0, .go true] = .ok s ∧ s.pc true = .inside 0 .fill ∧
      ∃ t, step s (.go true) = .ok t ∧ t.lock true 0 = some .clean ∧ (t.cache.inode 0).inum = 1 ∧ (t.cache.inode 0).type = 0 ∧
        (t.cache.ino 1).type = 3 := by
    decide +kernel
  exact ⟨s, t, .runList (fun _ _ => trivial) (.init rfl) hs, hpc, ht, hlock, hinum, htype, hino⟩

end ISys

/-! ### One process at a time -/

namespace Fs
variable {fs fs' : Fs} {i : InodeIdx}

def icache (fs : Fs) : Icache where
  ino := (imgOf fs.sb fs.blk).ino
  sb := fs.sb
  disksize := fs.disksize
  inode := fs.inode

theorem icache_bread {dev inum : Nat} {x : Block} (hi : inum < fs.sb.ninodes) (h : fs.bread dev (fs.sb.iblock inum) = .ok x) :
    fs.icache.bread dev inum = .ok (readDinode x inum) := by
  unfold Fs.bread at h
  split_ifs at h with hdev hsize
  cases h
  rw [Icache.bread, if_neg hdev, if_neg (show ¬fs.icache.disksize ≤ fs.icache.sb.iblock inum from hsize)]
  exact congrArg Outcome.ok (if_pos hi)

/-- Inode 1 of the disk is a file, and slot 0 of the cache is for it. -/
def oneInode : Fs where
  blk := update (fun _ => .zero) 32 (writeDinode .zero 1 { type := 2, nlink := 1 })
  disksize := 1000
  sb := ⟨1000, 900, 10, 30, 2, 32, 34⟩
  inode _ := { type := 3, dev := 1, inum := 1, ref := 1, busy := false, valid := false }

theorem icache_iupdate (ok : fs.sb.Ok) (hi : (fs.inode i).inum < fs.sb.ninodes) (h : fs.iupdate i = .ok fs') :
    fs.icache.iupdate i = .ok fs'.icache := by
  obtain ⟨x, hx, h⟩ := bind_eq_ok.mp h
  have hread : fs.icache.bread (fs.icache.inode i).dev (fs.icache.inode i).inum = _ := icache_bread hi hx
  cases h
  unfold Fs.bread at hx
  split_ifs at hx
  cases hx
  have himg : imgOf fs.sb (update fs.blk _ _) = _ := imgOf_writeDinode ok hi (fs.inode i).toDinode
  rw [Icache.iupdate, hread, ok_bind]
  show Outcome.ok _ = Outcome.ok _
  rw [Icache.setIno, icache, icache, logWrite, himg]
  rfl

theorem icache_iupdate_oneInode : ∃ fs' : Fs, (fs'.icache.ino 1).type = 3 ∧ oneInode.icache.iupdate 0 = .ok fs'.icache := by
  obtain ⟨fs', h, htype⟩ : ∃ fs, oneInode.iupdate 0 = .ok fs ∧ (fs.icache.ino 1).type = 3 := by decide +kernel
  exact ⟨fs', htype, icache_iupdate ⟨rfl, rfl, rfl, by decide, by decide⟩ (by decide) h⟩

end Fs
end Xv6
