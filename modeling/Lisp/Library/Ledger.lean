import Mathlib.Data.List.Perm.Basic

/-! Accounts of the elements of a container: each one that came in is there or has left. -/

open scoped List
variable {α : Type} {came stay stay' gone out : List α} {x : α}

/-- The elements that came in are those that are there and those that left, each once. -/
def Ledger (came stay gone : List α) : Prop := came ~ stay ++ gone

theorem Ledger.init : Ledger ([] : List α) [] [] := .refl _

/-- The order of the elements in the container does not matter. -/
theorem Ledger.perm (h : Ledger came stay gone) (hs : stay ~ stay') : Ledger came stay' gone :=
  List.Perm.trans h (hs.append_right gone)

theorem Ledger.enter (h : Ledger came stay gone) (x : α) :
    Ledger (came ++ [x]) (x :: stay) gone :=
  (List.perm_append_singleton x came).trans (List.Perm.cons x h)

theorem Ledger.leaveAll (h : Ledger came (stay ++ out) gone) : Ledger came stay (gone ++ out) := by
  unfold Ledger at h ⊢
  rw [List.append_assoc] at h
  exact h.trans (List.perm_append_comm.append_left stay)

theorem Ledger.leave (h : Ledger came (x :: stay) gone) : Ledger came stay (gone ++ [x]) :=
  (h.perm (List.perm_append_singleton x stay).symm).leaveAll
