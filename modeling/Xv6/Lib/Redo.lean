/-
# Xv6.Lib.Redo — write lists, and why a redo log may be installed any number of times.

`replay m ws` is the content `m` after the writes `ws`, in order.  A redo log is a list of writes to
distinct places.  What makes it safe to crash while it is being installed is one fact: performing one
of its writes early does not change what the whole list makes of the content (`replay_update_of_mem`).
-/
import Mathlib.Data.List.Nodup
import Mathlib.Logic.Function.Basic

namespace Xv6.Lib

open Function List

variable {κ α : Type*} [DecidableEq κ]

/-- The content `m` after the writes `ws`, the first one first. -/
def replay (m : κ → α) (ws : List (κ × α)) : κ → α := ws.foldl (fun m w => Function.update m w.1 w.2) m

variable {m m' : κ → α} {ws : List (κ × α)} {k : κ} {x : α}

@[simp] theorem replay_cons (m : κ → α) (w : κ × α) (ws : List (κ × α)) :
    replay m (w :: ws) = replay (Function.update m w.1 w.2) ws := rfl

theorem replay_concat (m : κ → α) (ws : List (κ × α)) (w : κ × α) :
    replay m (ws ++ [w]) = Function.update (replay m ws) w.1 w.2 := by
  simp [replay]

/-- A place that is written holds the same whatever it held before. -/
theorem replay_congr (h : k ∈ ws.map Prod.fst ∨ m k = m' k) : replay m ws k = replay m' ws k := by
  induction ws generalizing m m' with
  | nil => exact h.resolve_left (by simp)
  | cons w ws ih =>
    rw [replay_cons, replay_cons]
    refine ih ?_
    by_cases hk : k = w.1
    · exact .inr (by simp [hk])
    · rw [update_of_ne hk, update_of_ne hk]
      refine h.imp_left fun hmem => ?_
      exact (mem_cons.mp hmem).resolve_left hk

theorem replay_of_notMem (h : k ∉ ws.map Prod.fst) : replay m ws k = m k := by
  induction ws generalizing m with
  | nil => rfl
  | cons w ws ih =>
    rw [map_cons, mem_cons, not_or] at h
    rw [replay_cons, ih h.2, update_of_ne h.1]

/-- With distinct places, every write of the list is the last one to its place. -/
theorem replay_of_mem (hnd : (ws.map Prod.fst).Nodup) (h : (k, x) ∈ ws) : replay m ws k = x := by
  induction ws generalizing m with
  | nil => cases h
  | cons w ws ih =>
    rw [map_cons, nodup_cons] at hnd
    rcases mem_cons.mp h with rfl | h
    · rw [replay_cons, replay_of_notMem hnd.1, update_self]
    · exact ih hnd.2 h

/-- **Installing an entry early changes nothing.** -/
theorem replay_update_of_mem (hnd : (ws.map Prod.fst).Nodup) (h : (k, x) ∈ ws) :
    replay (Function.update m k x) ws = replay m ws := by
  funext j
  by_cases hj : j = k
  · subst hj
    rw [replay_of_mem hnd h, replay_of_mem hnd h]
  · exact replay_congr (.inr (update_of_ne hj x m))

/-- A log that has been installed has no effect any more. -/
theorem replay_eq_self (h : ∀ w ∈ ws, m w.1 = w.2) : replay m ws = m := by
  induction ws with
  | nil => rfl
  | cons w ws ih =>
    have hw : Function.update m w.1 w.2 = m := by rw [← h w mem_cons_self, update_eq_self]
    rw [replay_cons, hw]
    exact ih fun v hv => h v (mem_cons_of_mem w hv)

end Xv6.Lib
