import Mathlib.Logic.Function.Basic
import Mathlib.Data.List.Basic

/-! Writing a list of records into a map, as a redo log is replayed: the records are written in order, so
    the last record of a key decides. -/

namespace Redo
open Function (update)
variable {κ β : Type*} [DecidableEq κ]

/-- Write the records of `ws` into `m`, from the first to the last. -/
def replay (ws : List (κ × β)) (m : κ → β) : κ → β :=
  ws.foldl (fun m w => update m w.1 w.2) m

@[simp] theorem replay_nil (m : κ → β) : replay [] m = m := rfl

theorem replay_append (ws vs : List (κ × β)) (m : κ → β) : replay (ws ++ vs) m = replay vs (replay ws m) :=
  List.foldl_append

theorem replay_snoc (ws : List (κ × β)) (k : κ) (v : β) (m : κ → β) :
    replay (ws ++ [(k, v)]) m = update (replay ws m) k v := by
  rw [replay_append]
  rfl

theorem replay_of_notMem {ws : List (κ × β)} {k : κ} (m : κ → β) (h : ∀ w ∈ ws, w.1 ≠ k) :
    replay ws m k = m k := by
  induction ws generalizing m with
  | nil => rfl
  | cons w ws ih =>
    have hw : w.1 ≠ k := h w List.mem_cons_self
    have := ih (update m w.1 w.2) fun w' hw' => h w' (List.mem_cons_of_mem _ hw')
    rw [Function.update_of_ne hw.symm] at this
    exact this

end Redo
