import Mathlib.Data.List.Basic

/-!
# Concurrent tasks

The tasks that run at a moment are a list, a task being where it stands in its code.
-/

namespace Tasks

open List

variable {τ : Type} {tasks new : List τ} {i : Nat}

def replace (tasks : List τ) (i : Nat) (new : List τ) : List τ :=
  tasks.take i ++ new ++ tasks.drop (i + 1)

theorem mem_replace_new (h : t ∈ new) : t ∈ replace tasks i new :=
  mem_append_left _ (mem_append_right _ h)

/-- A step takes one task out and puts those it goes on as in. -/
theorem perm_replace (hold : tasks[i]? = some old) (new : List τ) :
    (old :: replace tasks i new).Perm (new ++ tasks) := by
  obtain ⟨hlt, rfl⟩ := List.getElem?_eq_some_iff.1 hold
  calc tasks[i] :: replace tasks i new
    _ ~ tasks.take i ++ new ++ tasks[i] :: tasks.drop (i + 1) := perm_middle.symm
    _ ~ new ++ tasks.take i ++ tasks[i] :: tasks.drop (i + 1) := perm_append_comm.append_right _
    _ = new ++ tasks := by rw [← drop_eq_getElem_cons hlt, append_assoc, take_append_drop]

theorem mem_replace (hold : tasks[i]? = some old) (h : t ∈ tasks) :
    t = old ∨ t ∈ replace tasks i new :=
  mem_cons.1 ((perm_replace hold new).symm.subset (mem_append_right _ h))

/-- A kind of task is still there, if the task that went on is of it only when one of those it goes
on as is. -/
theorem exists_replace {P : τ → Prop} (hold : tasks[i]? = some old) (h : ∃ t ∈ tasks, P t)
    (hnew : P old → ∃ t ∈ new, P t) : ∃ t ∈ replace tasks i new, P t := by
  obtain ⟨t, ht, hP⟩ := h
  rcases mem_replace hold ht with rfl | ht
  · obtain ⟨t', ht', hP'⟩ := hnew hP
    exact ⟨t', mem_replace_new ht', hP'⟩
  · exact ⟨t, ht, hP⟩

end Tasks
