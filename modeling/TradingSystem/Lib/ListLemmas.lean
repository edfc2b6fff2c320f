import Mathlib.Algebra.BigOperators.Group.List.Basic
import Mathlib.Algebra.GroupWithZero.Nat
import Mathlib.Data.List.Forall2
import Mathlib.Data.List.Pairwise
import Mathlib.Data.List.Sort

/-! Facts about lists that the library does not have in this form. -/

namespace ListLemmas

variable {α : Type*}

theorem eraseP_congr {p q : α → Bool} {l : List α} (h : ∀ a ∈ l, p a = q a) :
    l.eraseP p = l.eraseP q := by
  induction l with
  | nil => rfl
  | cons a l ih =>
    have hl := ih (fun b hb => h b (List.mem_cons_of_mem a hb))
    simp only [List.eraseP_cons, h a List.mem_cons_self, hl]

theorem take_snoc {l : List α} {n : ℕ} {a : α} (h : l[n]? = some a) :
    l.take (n + 1) = l.take n ++ [a] := by
  rw [List.take_add_one, h]
  rfl

theorem prefix_snoc {l l' : List α} {a : α} (h : l <+: l') (ha : l'[l.length]? = some a) :
    l ++ [a] <+: l' := by
  obtain ⟨rest, rfl⟩ := h
  cases rest with
  | nil => simp at ha
  | cons b rest =>
    obtain rfl : b = a := by simpa using ha
    exact ⟨rest, by simp⟩

/-- The element `find?` returns and what `eraseP` leaves make up the list. -/
theorem perm_find_eraseP (p : α → Bool) (l : List α) :
    l.Perm ((l.find? p).toList ++ l.eraseP p) := by
  induction l with
  | nil => exact List.Perm.refl _
  | cons a l ih =>
    cases ha : p a with
    | true => simp [ha]
    | false =>
      simp only [List.find?_cons, List.eraseP_cons, ha, cond_false]
      exact (ih.cons a).trans List.perm_middle.symm

/-- Where at most one element satisfies `p`, erasing it filters it out. -/
theorem eraseP_eq_filter {p : α → Bool} {l : List α}
    (h : l.Pairwise (fun a b => p a = true → p b = false)) :
    l.eraseP p = l.filter (fun a => !p a) := by
  induction l with
  | nil => rfl
  | cons a l ih =>
    obtain ⟨ha, hl⟩ := List.pairwise_cons.mp h
    cases hp : p a with
    | true =>
      have hall : l.filter (fun b => !p b) = l := by
        rw [List.filter_eq_self]
        intro b hb
        simp [ha b hb hp]
      simp [hp, hall]
    | false => simp [hp, ih hl]

/-! ## Ordered lists -/

/-- A predicate that holds of every element before one it holds of cuts the
list in two. -/
theorem takeWhile_dropWhile_eq_filter {p : α → Bool} {l : List α}
    (h : l.Pairwise (fun a b => p b = true → p a = true)) :
    l.takeWhile p = l.filter p ∧ l.dropWhile p = l.filter (fun a => !p a) := by
  induction l with
  | nil => exact ⟨rfl, rfl⟩
  | cons a l ih =>
    obtain ⟨ha, hl⟩ := List.pairwise_cons.mp h
    cases hp : p a with
    | true => simpa [hp] using ih hl
    | false =>
      have hnone : ∀ b ∈ l, p b = false := by
        intro b hb
        cases hb' : p b with
        | false => rfl
        | true => simpa [hp] using ha b hb hb'
      have hfilter : l.filter p = [] := by
        rw [List.filter_eq_nil_iff]
        intro b hb
        simp [hnone b hb]
      have hall : l.filter (fun b => !p b) = l := by
        rw [List.filter_eq_self]
        intro b hb
        simp [hnone b hb]
      simp [hp, hfilter, hall]

/-- Sorting finds the strictly ordered arrangement of a list, if it has one. -/
theorem insertionSort_eq {r s : α → α → Prop} [DecidableRel r] [Std.Total r] [IsTrans α r]
    (hs : ∀ a b, s a b → r a b ∧ ¬ r b a) {l l' : List α} (hp : l.Perm l')
    (h : l'.Pairwise s) : l.insertionSort r = l' := by
  have hperm := (List.perm_insertionSort r l).trans hp
  apply List.Perm.eq_of_pairwise _ (List.pairwise_insertionSort r l)
    (h.imp fun {a b} hab => (hs a b hab).1) hperm
  intro a b ha hb hab hba
  by_contra hne
  have hsep : l'.Pairwise (fun a b => ¬ (r a b ∧ r b a)) :=
    h.imp fun {a b} hab (hr : r a b ∧ r b a) => (hs a b hab).2 hr.2
  have : Std.Symm (fun a b => ¬ (r a b ∧ r b a)) := ⟨fun a b hn hr => hn hr.symm⟩
  exact hsep.forall (hperm.mem_iff.mp ha) hb hne ⟨hab, hba⟩

theorem forall₂_exists {β : Type*} {R : α → β → Prop} {l : List α} {m : List β}
    (h : List.Forall₂ R l m) {a : α} (ha : a ∈ l) : ∃ b ∈ m, R a b := by
  induction h with
  | nil => cases ha
  | cons hab _ ih =>
    rcases List.mem_cons.mp ha with rfl | ha
    · exact ⟨_, List.mem_cons_self, hab⟩
    · obtain ⟨b, hb, hR⟩ := ih ha
      exact ⟨b, List.mem_cons_of_mem _ hb, hR⟩

/-! ## Sums over a selection -/

/-- The sum of `q` over the elements `sel` selects. -/
def total (sel : α → Bool) (q : α → ℕ) (l : List α) : ℕ := ((l.filter sel).map q).sum

variable {sel sel' : α → Bool} {q : α → ℕ}

@[simp] theorem total_nil : total sel q [] = 0 := rfl

@[simp] theorem total_cons (a : α) (l : List α) :
    total sel q (a :: l) = cond (sel a) (q a) 0 + total sel q l := by
  unfold total
  cases h : sel a <;> simp [h]

@[simp] theorem total_append (l l' : List α) :
    total sel q (l ++ l') = total sel q l + total sel q l' := by
  simp [total]

theorem total_perm {l l' : List α} (h : l.Perm l') : total sel q l = total sel q l' :=
  ((h.filter sel).map q).sum_eq

theorem total_congr {l : List α} (h : ∀ a ∈ l, sel a = sel' a) :
    total sel q l = total sel' q l := by
  unfold total
  rw [List.filter_congr h]

/-- Elements counted by either of two selections are counted by one of them,
or by both. -/
theorem total_or_add_and (sel sel' : α → Bool) (q : α → ℕ) (l : List α) :
    total (fun a => sel a || sel' a) q l + total (fun a => sel a && sel' a) q l =
      total sel q l + total sel' q l := by
  induction l with
  | nil => rfl
  | cons a l ih =>
    simp only [total_cons]
    cases sel a <;> cases sel' a <;> simp <;> omega

theorem total_and_le (sel sel' : α → Bool) (q : α → ℕ) (l : List α) :
    total (fun a => sel a && sel' a) q l ≤ total sel q l ∧
      total (fun a => sel a && sel' a) q l ≤ total sel' q l := by
  induction l with
  | nil => exact ⟨Nat.le_refl _, Nat.le_refl _⟩
  | cons a l ih =>
    simp only [total_cons]
    cases sel a <;> cases sel' a <;> simp <;> omega

end ListLemmas
