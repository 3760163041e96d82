import Mathlib.Logic.Function.Basic
import MaximalMunch.Text.Hexadecimal

/-!
# Numbers behind numerals

The sixteen digits differ in capital letters too, and no zeros are written in front, so numbers are
written differently (`hexUpper_injective`).
-/

namespace MaximalMunch.Text

variable {n i j : Nat} {c : Char}

/-- A digit to base sixteen, as a capital letter from ten on. -/
def hexDigit (i : Nat) : Char := i.digitChar.toUpper

/-- Different digits have different characters. -/
theorem hexDigit_inj : ∀ i < 16, ∀ j < 16, hexDigit i = hexDigit j → i = j := by decide

/-- A number below 16 has one digit. -/
theorem hexUpper_of_lt (h : n < 16) : hexUpper n = [hexDigit n] := by
  rw [hexUpper, Nat.toDigits_of_lt_base h]
  rfl

/-- The last digit is the remainder. -/
theorem hexUpper_of_le (h : 16 ≤ n) : hexUpper n = hexUpper (n / 16) ++ [hexDigit (n % 16)] := by
  rw [hexUpper, Nat.toDigits_of_base_le (by decide) h, List.map_append]
  rfl

/-- Every number has a digit. -/
theorem hexUpper_ne_nil (n : Nat) : hexUpper n ≠ [] := by
  rw [hexUpper, ne_eq, List.map_eq_nil_iff]
  exact Nat.toDigits_ne_nil

/-- Numerals are made of digits. -/
theorem exists_hexDigit_of_mem (hc : c ∈ hexUpper n) : ∃ i < 16, c = hexDigit i := by
  induction n using Nat.strongRecOn with
  | ind n ih =>
    rcases Nat.lt_or_ge n 16 with hn | hn
    · rw [hexUpper_of_lt hn, List.mem_singleton] at hc
      exact ⟨n, hn, hc⟩
    · rw [hexUpper_of_le hn, List.mem_append, List.mem_singleton] at hc
      rcases hc with hc | hc
      · exact ih (n / 16) (Nat.div_lt_self (by omega) (by decide)) hc
      · exact ⟨n % 16, Nat.mod_lt n (by decide), hc⟩

/-- Different numbers have different numerals. -/
theorem hexUpper_injective : Function.Injective hexUpper := by
  intro n
  induction n using Nat.strongRecOn with
  | ind n ih =>
    intro m h
    rcases Nat.lt_or_ge n 16 with hn | hn <;> rcases Nat.lt_or_ge m 16 with hm | hm
    · rw [hexUpper_of_lt hn, hexUpper_of_lt hm] at h
      exact hexDigit_inj n hn m hm (List.cons.inj h).1
    · -- a single digit has nothing in front of it
      rw [hexUpper_of_lt hn, hexUpper_of_le hm] at h
      have hfront := (List.append_inj' (show [] ++ [hexDigit n] = _ ++ [_] from h) rfl).1
      exact absurd hfront.symm (hexUpper_ne_nil _)
    · rw [hexUpper_of_le hn, hexUpper_of_lt hm] at h
      have hfront := (List.append_inj' (show _ ++ [_] = [] ++ [hexDigit m] from h) rfl).1
      exact absurd hfront (hexUpper_ne_nil _)
    · rw [hexUpper_of_le hn, hexUpper_of_le hm] at h
      obtain ⟨hfront, hlast⟩ := List.append_inj' h rfl
      have hdiv : n / 16 = m / 16 := ih _ (Nat.div_lt_self (by omega) (by decide)) hfront
      have hmod : n % 16 = m % 16 := hexDigit_inj _ (Nat.mod_lt n (by decide)) _
        (Nat.mod_lt m (by decide)) (List.cons.inj hlast).1
      omega

end MaximalMunch.Text
