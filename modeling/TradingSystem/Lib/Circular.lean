import Mathlib.Logic.Function.Basic
import Mathlib.Order.Interval.Finset.Nat

/-!
# A window of a sequence in circular slots

Entry `k` of a growing list lives in slot `k % n` of a buffer. `Window` says
that the entries from `lo` on are stored, and that the marked slots are
exactly theirs. Writing the next entry needs `lo` to be within `n` of the end;
then its slot is unmarked, so no stored entry is lost.
-/

namespace Circular

variable {α : Type*} {n : ℕ} {buffer : ℕ → α} {mark : ℕ → Bool} {l : List α} {lo : ℕ}

structure Window (n : ℕ) (buffer : ℕ → α) (mark : ℕ → Bool) (l : List α) (lo : ℕ) : Prop where
  le : lo ≤ l.length
  stored : ∀ k, lo ≤ k → k < l.length → l[k]? = some (buffer (k % n))
  marked : ∀ i, mark i = true ↔ ∃ k, lo ≤ k ∧ k < l.length ∧ k % n = i

theorem Window.empty (n : ℕ) (buffer : ℕ → α) : Window n buffer (fun _ => false) [] 0 where
  le := Nat.le_refl _
  stored := by
    intro k _ hk
    cases hk
  marked := by simp

/-- Entries less than `n` apart are in different slots. -/
theorem slot_inj {i j : ℕ} (hi : lo ≤ i) (hj : lo ≤ j) (hi' : i < lo + n) (hj' : j < lo + n)
    (h : i % n = j % n) : i = j :=
  Nat.mod_injOn_Ico lo n (by simp [hi, hi']) (by simp [hj, hj']) h

/-- The slot of the next entry holds nothing still wanted. -/
theorem Window.free (h : Window n buffer mark l lo) (hroom : l.length < lo + n) :
    mark (l.length % n) = false := by
  rw [Bool.eq_false_iff, ne_eq, h.marked]
  rintro ⟨k, hk, hkl, he⟩
  have := slot_inj hk h.le (by omega) hroom he
  omega

theorem Window.write (h : Window n buffer mark l lo) (hroom : l.length < lo + n) (x : α) :
    Window n (Function.update buffer (l.length % n) x)
      (Function.update mark (l.length % n) true) (l ++ [x]) lo where
  le := by simpa using Nat.le_succ_of_le h.le
  stored := by
    intro k hk hkl
    rw [List.length_append, List.length_singleton] at hkl
    rcases Nat.lt_succ_iff_lt_or_eq.mp hkl with hkl | rfl
    · have hne : k % n ≠ l.length % n := fun he => by
        have := slot_inj hk h.le (by omega) hroom he
        omega
      rw [Function.update_of_ne hne, List.getElem?_append_left hkl]
      exact h.stored k hk hkl
    · simp
  marked := by
    intro i
    by_cases hi : i = l.length % n
    · subst hi
      simp only [Function.update_self, true_iff, List.length_append, List.length_singleton]
      exact ⟨l.length, h.le, Nat.lt_succ_self _, rfl⟩
    · rw [Function.update_of_ne hi, h.marked, List.length_append, List.length_singleton]
      constructor
      · rintro ⟨k, hk, hkl, he⟩
        exact ⟨k, hk, Nat.lt_succ_of_lt hkl, he⟩
      · rintro ⟨k, hk, hkl, he⟩
        rcases Nat.lt_succ_iff_lt_or_eq.mp hkl with hkl | rfl
        · exact ⟨k, hk, hkl, he⟩
        · exact absurd he.symm hi

/-- The slot of the first entry is marked until it is read. -/
theorem Window.ready (h : Window n buffer mark l lo) (hlo : lo < l.length) :
    mark (lo % n) = true :=
  (h.marked _).mpr ⟨lo, Nat.le_refl _, hlo, rfl⟩

/-- Once the first entry is read its slot is given up. -/
theorem Window.read (h : Window n buffer mark l lo) (hlo : lo < l.length)
    (hroom : l.length ≤ lo + n) :
    Window n buffer (Function.update mark (lo % n) false) l (lo + 1) where
  le := hlo
  stored := fun k hk hkl => h.stored k (Nat.le_of_succ_le hk) hkl
  marked := by
    intro i
    by_cases hi : i = lo % n
    · subst hi
      simp only [Function.update_self, Bool.false_eq_true, false_iff]
      rintro ⟨k, hk, hkl, he⟩
      have := slot_inj (Nat.le_of_succ_le hk) (Nat.le_refl lo) (by omega) (by omega) he
      omega
    · rw [Function.update_of_ne hi, h.marked]
      constructor
      · rintro ⟨k, hk, hkl, he⟩
        refine ⟨k, Nat.lt_of_le_of_ne hk ?_, hkl, he⟩
        rintro rfl
        exact hi he.symm
      · rintro ⟨k, hk, hkl, he⟩
        exact ⟨k, Nat.le_of_succ_le hk, hkl, he⟩

end Circular
