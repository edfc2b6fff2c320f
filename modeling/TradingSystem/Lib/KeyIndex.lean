import Mathlib.Data.List.Perm.Basic
import Mathlib.Logic.Function.Basic

/-!
# One-slot indexes over a collection with keys

`Exact index items` says that the items have distinct keys and that the index
maps each key in use to the value of its item, and no other key to anything.
`Sound index items` is what is left of it when keys repeat: an entry is the
value of some item with its key. The collection is a list, taken up to
permutation. Both are `Stable`: they survive the removal of any item, as long
as the entry of its key is removed with it.
-/

namespace KeyIndex

variable {α K V : Type*} (key : α → K) (val : α → V)

structure Exact (index : K → Option V) (items : List α) : Prop where
  unique : (items.map key).Nodup
  iff : ∀ k v, index k = some v ↔ ∃ a ∈ items, key a = k ∧ val a = v

def Sound (index : K → Option V) (items : List α) : Prop :=
  ∀ k v, index k = some v → ∃ a ∈ items, key a = k ∧ val a = v

/-- What a removal of an item with the entry of its key, or a change that the
index does not see, preserves. -/
structure Stable [DecidableEq K] (I : (K → Option V) → List α → Prop) : Prop where
  perm : ∀ {index items items'}, I index items → items.Perm items' → I index items'
  remove : ∀ {index items a}, I index (a :: items) → I (Function.update index (key a) none) items
  replace : ∀ {index items a b}, I index (a :: items) → key b = key a → val b = val a →
    I index (b :: items)

variable {key val} {index : K → Option V} {items items' : List α} {a b : α}

theorem Exact.empty : Exact key val (fun _ => none) [] :=
  ⟨List.nodup_nil, by simp⟩

theorem Exact.perm (h : Exact key val index items) (hp : items.Perm items') :
    Exact key val index items' :=
  ⟨(hp.map key).nodup_iff.mp h.unique, fun k v => by simp only [h.iff, hp.mem_iff]⟩

theorem Exact.get (h : Exact key val index items) (ha : a ∈ items) :
    index (key a) = some (val a) :=
  (h.iff _ _).mpr ⟨a, ha, rfl, rfl⟩

theorem Exact.none_iff (h : Exact key val index items) {k : K} :
    index k = none ↔ ∀ a ∈ items, key a ≠ k := by
  constructor
  · rintro hn a ha rfl
    rw [h.get ha] at hn
    cases hn
  · intro hall
    cases hi : index k with
    | none => rfl
    | some v =>
      obtain ⟨a, ha, hk, -⟩ := (h.iff k v).mp hi
      exact absurd hk (hall a ha)

theorem Exact.head_fresh (h : Exact key val index (a :: items)) : ∀ b ∈ items, key b ≠ key a := by
  intro b hb heq
  have hn := (List.nodup_cons.mp h.unique).1
  exact hn (heq ▸ List.mem_map_of_mem hb)

variable [DecidableEq K]

theorem Exact.insert (h : Exact key val index items) (hfresh : ∀ b ∈ items, key b ≠ key a) :
    Exact key val (Function.update index (key a) (some (val a))) (a :: items) := by
  constructor
  · simp only [List.map_cons, List.nodup_cons, List.mem_map, not_exists, not_and]
    exact ⟨hfresh, h.unique⟩
  · intro k v
    by_cases hk : k = key a
    · subst hk
      simp only [Function.update_self, Option.some.injEq, List.mem_cons]
      constructor
      · rintro rfl
        exact ⟨a, Or.inl rfl, rfl, rfl⟩
      · rintro ⟨b, rfl | hb, hkey, hval⟩
        · exact hval
        · exact absurd hkey (hfresh b hb)
    · simp only [Function.update_of_ne hk, h.iff, List.mem_cons]
      constructor
      · rintro ⟨b, hb, hkey⟩
        exact ⟨b, Or.inr hb, hkey⟩
      · rintro ⟨b, rfl | hb, hkey, hval⟩
        · exact absurd hkey.symm hk
        · exact ⟨b, hb, hkey, hval⟩

theorem Exact.remove (h : Exact key val index (a :: items)) :
    Exact key val (Function.update index (key a) none) items := by
  have hfresh := h.head_fresh
  constructor
  · exact (List.nodup_cons.mp h.unique).2
  · intro k v
    by_cases hk : k = key a
    · subst hk
      simp only [Function.update_self, reduceCtorEq, false_iff, not_exists, not_and]
      exact fun b hb hkey => absurd hkey (hfresh b hb)
    · simp only [Function.update_of_ne hk, h.iff, List.mem_cons]
      constructor
      · rintro ⟨b, rfl | hb, hkey, hval⟩
        · exact absurd hkey.symm hk
        · exact ⟨b, hb, hkey, hval⟩
      · rintro ⟨b, hb, hkey⟩
        exact ⟨b, Or.inr hb, hkey⟩

omit [DecidableEq K] in
/-- Replacing an item by one with the same key and value. -/
theorem Exact.replace (h : Exact key val index (a :: items)) (hk : key b = key a)
    (hv : val b = val a) : Exact key val index (b :: items) := by
  constructor
  · have := h.unique
    simpa only [List.map_cons, hk] using this
  · intro k v
    rw [h.iff]
    simp only [List.mem_cons, exists_eq_or_imp, hk, hv]

theorem exact_stable : Stable key val (Exact key val) where
  perm := Exact.perm
  remove := Exact.remove
  replace := Exact.replace

/-! ## Repeated keys -/

/-- The new item takes over the entry of its key. -/
theorem Sound.insert (h : Sound key val index items) :
    Sound key val (Function.update index (key a) (some (val a))) (a :: items) := by
  intro k v hk
  by_cases hka : k = key a
  · subst hka
    rw [Function.update_self] at hk
    exact ⟨a, List.mem_cons_self, rfl, Option.some.inj hk⟩
  · rw [Function.update_of_ne hka] at hk
    obtain ⟨b, hb, hkey⟩ := h k v hk
    exact ⟨b, List.mem_cons_of_mem a hb, hkey⟩

/-- An entry may be dropped at any time. -/
theorem Sound.forget (h : Sound key val index items) (k : K) :
    Sound key val (Function.update index k none) items := by
  intro k' v hk
  by_cases hkk : k' = k
  · rw [hkk, Function.update_self] at hk
    cases hk
  · rw [Function.update_of_ne hkk] at hk
    exact h k' v hk

theorem sound_stable : Stable key val (Sound key val) where
  perm h hp k v hk := by
    obtain ⟨a, ha, hkey⟩ := h k v hk
    exact ⟨a, hp.mem_iff.mp ha, hkey⟩
  remove {index items a} h k v hk := by
    obtain ⟨b, hb, hkey, hval⟩ := h.forget (key a) k v hk
    rcases List.mem_cons.mp hb with rfl | hb
    · rw [hkey, Function.update_self] at hk
      cases hk
    · exact ⟨b, hb, hkey, hval⟩
  replace {index items a b} h hkey hval k v hk := by
    obtain ⟨c, hc, hck, hcv⟩ := h k v hk
    rcases List.mem_cons.mp hc with rfl | hc
    · exact ⟨b, List.mem_cons_self, hkey.trans hck, hval.trans hcv⟩
    · exact ⟨c, List.mem_cons_of_mem b hc, hck, hcv⟩

end KeyIndex
