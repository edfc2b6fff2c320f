import Mathlib.Data.List.Basic
import Mathlib.Data.Nat.Notation

/-!
# Cutting a stream into frames of fixed size

`frames n l` are the complete blocks of `n` elements at the front of `l`,
`leftover n l` is what remains behind them. A stream that arrives in pieces
can be cut as it arrives: only the leftover has to be kept.
-/

namespace Framing

variable {α : Type*}

def frames (n : ℕ) (l : List α) : List (List α) :=
  (List.range (l.length / n)).map fun i => (l.drop (n * i)).take n

def leftover (n : ℕ) (l : List α) : List α := l.drop (n * (l.length / n))

variable {n : ℕ} {l : List α}

@[simp] theorem length_frames : (frames n l).length = l.length / n := by
  simp [frames]

theorem getElem?_frames {i : ℕ} (h : i < l.length / n) :
    (frames n l)[i]? = some ((l.drop (n * i)).take n) := by
  rw [frames, List.getElem?_map, List.getElem?_range h]
  rfl

theorem frames_of_lt (h : l.length < n) : frames n l = [] := by
  simp [frames, Nat.div_eq_of_lt h]

theorem leftover_of_lt (h : l.length < n) : leftover n l = l := by
  simp [leftover, Nat.div_eq_of_lt h]

theorem length_leftover_lt (hn : 0 < n) : (leftover n l).length < n := by
  rw [leftover, List.length_drop, ← Nat.mod_eq_sub_mul_div]
  exact Nat.mod_lt _ hn

theorem length_div_of_le (hn : 0 < n) (h : n ≤ l.length) :
    l.length / n = (l.drop n).length / n + 1 := by
  rw [List.length_drop, Nat.div_eq_sub_div hn h]

theorem frames_of_le (hn : 0 < n) (h : n ≤ l.length) :
    frames n l = l.take n :: frames n (l.drop n) := by
  unfold frames
  rw [length_div_of_le hn h, List.range_succ_eq_map, List.map_cons, List.map_map]
  congr 1
  apply List.map_congr_left
  intro i _
  simp only [Function.comp_apply, List.drop_drop]
  rw [Nat.mul_succ, Nat.add_comm]

theorem leftover_of_le (hn : 0 < n) (h : n ≤ l.length) : leftover n l = leftover n (l.drop n) := by
  unfold leftover
  rw [length_div_of_le hn h, List.drop_drop, Nat.mul_succ, Nat.add_comm]

/-- What comes behind `l` is cut together with the leftover of `l`. -/
theorem frames_append (hn : 0 < n) (l m : List α) :
    frames n (l ++ m) = frames n l ++ frames n (leftover n l ++ m) ∧
      leftover n (l ++ m) = leftover n (leftover n l ++ m) := by
  induction hlen : l.length using Nat.strongRecOn generalizing l with
  | ind len ih =>
    by_cases h : l.length < n
    · rw [frames_of_lt h, leftover_of_lt h]
      exact ⟨rfl, rfl⟩
    · have hle : n ≤ l.length := Nat.not_lt.mp h
      have hle' : n ≤ (l ++ m).length := by
        rw [List.length_append]
        omega
      obtain ⟨hf, hl⟩ := ih (l.drop n).length (by rw [List.length_drop]; omega) (l.drop n) rfl
      rw [frames_of_le hn hle', frames_of_le hn hle, leftover_of_le hn hle',
        leftover_of_le hn hle, List.take_append_of_le_length hle, List.drop_append_of_le_length hle,
        hf, hl]
      exact ⟨rfl, rfl⟩

/-- A block behind complete blocks is a frame. -/
theorem frames_append_block (hn : 0 < n) (h : n ∣ l.length) {b : List α} (hb : b.length = n) :
    frames n (l ++ b) = frames n l ++ [b] := by
  have hleft : leftover n l = [] := by
    rw [leftover, Nat.mul_div_cancel' h, List.drop_length]
  have hblock : frames n b = [b] := by
    rw [frames_of_le hn (Nat.le_of_eq hb.symm), List.take_of_length_le (Nat.le_of_eq hb),
      List.drop_of_length_le (Nat.le_of_eq hb), frames_of_lt hn]
  rw [(frames_append hn l b).1, hleft, List.nil_append, hblock]

end Framing
