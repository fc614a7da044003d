import Abacus.Locale.Environment
import Abacus.Proofs.Numeral
import Mathlib.Data.Option.Basic

/-! # The separators of a locale

A name that is known means an entry of the table (`exists_entry?_eq_some`), so what holds of every entry
holds of the separators of every environment. None of them is a digit (`separators_avoids_digit`). -/

namespace Abacus

namespace Conventions
variable {c : Conventions}

theorem mem_table_of_entry?_eq_some {key : Text} (h : entry? key = some c) : (key, c) ∈ table := by
  obtain ⟨before, after, htable, -⟩ := List.lookup_eq_some_iff.1 h
  rw [htable]
  simp

/-- A known name means the entry for some key. -/
theorem exists_entry?_eq_some {name : Text} (h : ofName? name = some c) :
    ∃ key, entry? key = some c := by
  unfold ofName? at h
  rcases (Option.orElse_eq_some ..).1 h with h | ⟨-, h⟩
  · exact ⟨_, h⟩
  · unfold ofSubtags? at h
    split at h
    · cases h
    · exact ⟨_, h⟩
    · rcases (Option.orElse_eq_some ..).1 h with h | ⟨-, h⟩
      · exact ⟨_, h⟩
      · exact ⟨_, h⟩

theorem avoids_digit_of_mem_table :
    ∀ entry ∈ table, entry.2.separators.Avoids Char.isDigit := by
  have hall : table.all (fun entry => decide (entry.2.separators.Avoids Char.isDigit)) = true := by
    decide +kernel
  intro entry hentry
  exact of_decide_eq_true (List.all_eq_true.1 hall entry hentry)

theorem avoids_digit_of_ofName?_eq_some {name : Text} (h : ofName? name = some c) :
    c.separators.Avoids Char.isDigit := by
  obtain ⟨key, hkey⟩ := exists_entry?_eq_some h
  exact avoids_digit_of_mem_table (key, c) (mem_table_of_entry?_eq_some hkey)

end Conventions

/-- Whatever the environment says, no digit is a separator. -/
theorem Environment.separators_avoids_digit (env : Environment) :
    env.separators.Avoids Char.isDigit := by
  rw [separators]
  rcases h : env.conventions? with _ | c
  · exact ⟨by simp, by simp⟩
  · obtain ⟨name, -, hname⟩ := Option.bind_eq_some_iff.1 h
    exact Conventions.avoids_digit_of_ofName?_eq_some hname

end Abacus
