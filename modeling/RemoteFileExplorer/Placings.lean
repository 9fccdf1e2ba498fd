import Mathlib.Logic.Function.Basic

namespace RemoteFileExplorer.Placings

variable {Item Place Entry : Type} [DecidableEq Place] {entries : Place → Option Entry} {placed more : Item → Entry → Place → Prop}

structure Own (entries : Place → Option Entry) (placed : Item → Entry → Place → Prop) : Prop where
  held : ∀ i entry place, placed i entry place → entries place = some entry
  alone : ∀ i j one other place, placed i one place → placed j other place → i = j

section
variable (own : Own entries placed)
include own

theorem own_fewer (fewer : ∀ i entry place, more i entry place → placed i entry place) : Own entries more :=
  ⟨fun i entry place present => own.held i entry place (fewer i entry place present),
    fun i j one other place first second => own.alone i j one other place (fewer i one place first) (fewer j other place second)⟩

theorem free_unplaced (free : entries place = none) :
    ¬ placed i entry place := by
  intro present
  have there := own.held i entry place present
  rw [free] at there
  cases there

theorem own_beside (free : entries place = none) :
    Own (Function.update entries place entry) placed := by
  refine ⟨?_,own.alone⟩
  intro i one other present
  have different : other ≠ place := by
    rintro rfl
    exact free_unplaced own free present
  rw [Function.update_of_ne different]
  exact own.held i one other present

theorem own_put (spared : ∀ j other, placed j other place → j = i ∧ other = entry)
    (grows : ∀ j other there, more j other there → placed j other there ∨ (j = i ∧ other = entry ∧ there = place)) :
    Own (Function.update entries place (some entry)) more := by
  have here : ∀ j other, more j other place → j = i ∧ other = entry := by
    intro j other present
    rcases grows j other place present with old | ⟨same,also,_⟩
    · exact spared j other old
    · exact ⟨same,also⟩
  refine ⟨?_,?_⟩
  · intro j other there present
    by_cases equal : there = place
    · subst there
      rw [Function.update_self,(here j other present).2]
    · rw [Function.update_of_ne equal]
      rcases grows j other there present with old | ⟨_,_,same⟩
      · exact own.held j other there old
      · exact absurd same equal
  · intro j k one other there first second
    by_cases equal : there = place
    · subst there
      exact (here j one first).1.trans (here k other second).1.symm
    · rcases grows j one there first with old | ⟨_,_,same⟩
      · rcases grows k other there second with older | ⟨_,_,same⟩
        · exact own.alone j k one other there old older
        · exact absurd same equal
      · exact absurd same equal

end

end RemoteFileExplorer.Placings
