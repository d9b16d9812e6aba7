import Mathlib.Data.Fintype.Basic

/-! Copying a record word by word, in any order. The set of words still to be
copied shrinks by one with every step. -/

set_option autoImplicit false

namespace AnimusCore.Lib

abbrev Words (Word : Type) (width : Nat) := Fin width → Word

variable {Word : Type} {width : Nat} {todo : Finset (Fin width)} {copy source : Words Word width}

/-- The words that are no longer to be copied agree with the source. -/
def Copied (todo : Finset (Fin width)) (copy source : Words Word width) : Prop :=
  ∀ word, word ∉ todo → copy word = source word

theorem Copied.start : Copied Finset.univ copy source :=
  fun word outside => absurd (Finset.mem_univ word) outside

theorem Copied.word (copied : Copied todo copy source) (word : Fin width) :
    Copied (todo.erase word) (Function.update copy word (source word)) source := by
  intro other outside
  by_cases same : other = word
  · subst same
    rw [Function.update_self]
  · rw [Function.update_of_ne same]
    exact copied other fun inside => outside (Finset.mem_erase.mpr ⟨same, inside⟩)

theorem Copied.finish (copied : Copied ∅ copy source) : copy = source :=
  funext fun word => copied word (Finset.notMem_empty word)

end AnimusCore.Lib
