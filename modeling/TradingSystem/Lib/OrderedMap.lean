import Mathlib.Order.RelClasses
import Mathlib.Data.List.Flatten

/-!
# Maps kept in comparator order

A map is the list of its entries in the order of a comparator `lt`, as an
in-order walk of a balanced tree meets them. `find` and `alter` use nothing
but `lt`: two keys count as the same when neither is before the other.

`alter_split` says what a search does for any comparator, and a strict order
is enough for a map to stay sorted and for its keys to be found. For a strict
total order `Sorted.cut` splits a sorted map at a key. The other facts about
`find` and `alter` are read off that decomposition.
-/

namespace OrderedMap

variable {K V : Type*} (lt : K → K → Prop)

/-- Keys strictly increase in the comparator's order. -/
def Sorted (m : List (K × V)) : Prop := m.Pairwise (fun a b => lt a.1 b.1)

theorem Sorted.tail {lt : K → K → Prop} {e : K × V} {m : List (K × V)}
    (h : Sorted lt (e :: m)) : Sorted lt m :=
  (List.pairwise_cons.mp h).2

variable [DecidableRel lt]

/-- The value stored at `k`. -/
def find (k : K) : List (K × V) → Option V
  | [] => none
  | (k', v) :: m => if lt k' k then find k m else if lt k k' then none else some v

/-- Change what is stored at `k`: `f` receives the value there, if there is
one, and returns the value to leave, if one is to stay. -/
def alter (k : K) (f : Option V → Option V) : List (K × V) → List (K × V)
  | [] => (f none).toList.map (Prod.mk k)
  | (k', v) :: m =>
    if lt k' k then (k', v) :: alter k f m
    else if lt k k' then (f none).toList.map (Prod.mk k) ++ (k', v) :: m
    else (f (some v)).toList.map (Prod.mk k') ++ m

/-- Whatever the comparator, a search ends at one place: at an entry whose key
is neither before nor after `k`, or between two entries. Only that place is
read by `find` and changed by `alter`. -/
theorem alter_split (k : K) (m : List (K × V)) :
    ∃ pre mid post, m = pre ++ (Option.toList mid ++ post) ∧ find lt k m = mid.map Prod.snd ∧
      (∀ e ∈ mid, ¬ lt e.1 k ∧ ¬ lt k e.1) ∧
      ∀ f, alter lt k f m = pre ++
        ((f (mid.map Prod.snd)).toList.map (Prod.mk ((mid.map Prod.fst).getD k)) ++ post) := by
  induction m with
  | nil => exact ⟨[], none, [], rfl, rfl, by simp, fun f => (List.append_nil _).symm⟩
  | cons e m ih =>
    obtain ⟨k', v⟩ := e
    by_cases hb : lt k' k
    · obtain ⟨pre, mid, post, rfl, hfind, hmid, halter⟩ := ih
      exact ⟨(k', v) :: pre, mid, post, rfl, by simp [find, hb, hfind], hmid,
        fun f => by simp [alter, hb, halter]⟩
    · by_cases ha : lt k k'
      · exact ⟨[], none, (k', v) :: m, rfl, by simp [find, hb, ha], by simp,
          fun f => by simp [alter, hb, ha]⟩
      · exact ⟨[], some (k', v), m, rfl, by simp [find, hb, ha], by simp [hb, ha],
          fun f => by simp [alter, hb, ha]⟩

variable {lt}

/-- An entry after `alter`: an old one, a new one at `k`, or the changed one at
a key that is neither before nor after `k`. -/
theorem mem_alter_cases {k : K} {f : Option V → Option V} {m : List (K × V)} {e : K × V}
    (he : e ∈ alter lt k f m) :
    e ∈ m ∨ (e.1 = k ∧ f none = some e.2) ∨
      ∃ v, (e.1, v) ∈ m ∧ ¬ lt e.1 k ∧ ¬ lt k e.1 ∧ f (some v) = some e.2 := by
  obtain ⟨pre, mid, post, rfl, -, hmid, halter⟩ := alter_split lt k m
  rw [halter] at he
  rcases List.mem_append.mp he with he | he
  · exact Or.inl (List.mem_append_left _ he)
  · rcases List.mem_append.mp he with he | he
    · obtain ⟨w, hw, rfl⟩ := List.mem_map.mp he
      have hw := Option.mem_toList.mp hw
      cases mid with
      | none => exact Or.inr (Or.inl ⟨rfl, hw⟩)
      | some e => exact Or.inr (Or.inr ⟨e.2, by simp, (hmid e rfl).1, (hmid e rfl).2, hw⟩)
    · exact Or.inl (List.mem_append_right _ (List.mem_append_right _ he))

/-- Renaming keys in a way that keeps the comparator commutes with `alter`. -/
theorem map_alter {K' V' : Type*} {lt' : K' → K' → Prop} [DecidableRel lt'] {g : K → K'}
    {h : V → V'} (hlt : ∀ a b, lt' (g a) (g b) ↔ lt a b) (k : K) {f : Option V → Option V}
    {f' : Option V' → Option V'} (hf : ∀ v, f' (v.map h) = (f v).map h) (m : List (K × V)) :
    (alter lt k f m).map (Prod.map g h) = alter lt' (g k) f' (m.map (Prod.map g h)) := by
  have hnew : ∀ (k' : K) (v : Option V), ((f v).toList.map (Prod.mk k')).map (Prod.map g h) =
      (f' (v.map h)).toList.map (Prod.mk (g k')) := by
    intro k' v
    rw [hf]
    cases f v <;> rfl
  induction m with
  | nil => exact hnew k none
  | cons e m ih =>
    obtain ⟨k', v⟩ := e
    simp only [alter, List.map_cons, Prod.map_apply, hlt]
    split
    · rw [List.map_cons, ih, Prod.map_apply]
    · split
      · rw [List.map_append, hnew k none]
        rfl
      · rw [List.map_append, hnew k' (some v)]
        rfl

/-- The order is kept as long as the comparator is transitive: a key that is
neither before nor after `k` stays in place. -/
theorem Sorted.alter [IsTrans K lt] {m : List (K × V)} (h : Sorted lt m) (k : K)
    (f : Option V → Option V) : Sorted lt (alter lt k f m) := by
  induction m with
  | nil => cases hf : f none <;> simp [OrderedMap.alter, Sorted, hf]
  | cons e m ih =>
    obtain ⟨k', v⟩ := e
    have hlt : ∀ e ∈ m, lt k' e.1 := (List.pairwise_cons.mp h).1
    simp only [OrderedMap.alter]
    split
    · rename_i hb
      refine List.pairwise_cons.mpr ⟨fun e he => ?_, ih h.tail⟩
      rcases mem_alter_cases he with hm | ⟨hk, -⟩ | ⟨w, hm, -⟩
      · exact hlt e hm
      · rw [hk]
        exact hb
      · exact hlt (e.1, w) hm
    · split
      · rename_i ha
        cases f none with
        | none => exact h
        | some w =>
          refine List.pairwise_cons.mpr ⟨fun e he => ?_, h⟩
          rcases List.mem_cons.mp he with rfl | he
          · exact ha
          · exact IsTrans.trans _ _ _ ha (hlt e he)
      · cases f (some v) with
        | none => exact h.tail
        | some w => exact List.pairwise_cons.mpr ⟨hlt, h.tail⟩

/-- A search for a key that is there ends at it. -/
theorem Sorted.find_of_mem [Std.Irrefl lt] {m : List (K × V)} (h : Sorted lt m) {k : K} {v : V}
    (hm : (k, v) ∈ m) : find lt k m = some v := by
  induction m with
  | nil => cases hm
  | cons e m ih =>
    rcases List.mem_cons.mp hm with rfl | hm
    · simp [find, irrefl (r := lt) k]
    · have hlt : lt e.1 k := (List.pairwise_cons.mp h).1 _ hm
      simp only [find, if_pos hlt, ih h.tail hm]

variable [IsStrictTotalOrder K lt]

section Cut
variable {pre post : List (K × V)} {k : K} (hpre : ∀ e ∈ pre, lt e.1 k)
  (hpost : ∀ e ∈ post, lt k e.1) (mid : Option V)
include hpre hpost

theorem find_cut : find lt k (pre ++ (mid.toList.map (Prod.mk k) ++ post)) = mid := by
  induction pre with
  | nil =>
    cases mid with
    | some v => simp [find, irrefl (r := lt) k]
    | none =>
      cases post with
      | nil => rfl
      | cons e post =>
        have hk : lt k e.1 := hpost e List.mem_cons_self
        simp [find, hk, asymm hk]
  | cons e pre ih =>
    have he : lt e.1 k := hpre e List.mem_cons_self
    simpa [find, he] using ih fun x hx => hpre x (List.mem_cons_of_mem e hx)

theorem alter_cut (f : Option V → Option V) :
    alter lt k f (pre ++ (mid.toList.map (Prod.mk k) ++ post)) =
      pre ++ ((f mid).toList.map (Prod.mk k) ++ post) := by
  induction pre with
  | nil =>
    cases mid with
    | some v => simp [alter, irrefl (r := lt) k]
    | none =>
      cases post with
      | nil => simp [alter]
      | cons e post =>
        have hk : lt k e.1 := hpost e List.mem_cons_self
        simp [alter, hk, asymm hk]
  | cons e pre ih =>
    have he : lt e.1 k := hpre e List.mem_cons_self
    simp [alter, he, ih fun x hx => hpre x (List.mem_cons_of_mem e hx)]

end Cut

/-- A sorted map falls into the entries before `k`, the value at `k` if any,
and the entries after `k`. -/
theorem Sorted.cut {m : List (K × V)} (h : Sorted lt m) (k : K) :
    ∃ pre mid post, m = pre ++ (mid.toList.map (Prod.mk k) ++ post) ∧
      (∀ e ∈ pre, lt e.1 k) ∧ (∀ e ∈ post, lt k e.1) ∧ find lt k m = mid ∧
      ∀ f, OrderedMap.alter lt k f m = pre ++ ((f mid).toList.map (Prod.mk k) ++ post) := by
  suffices ∃ pre mid post, m = pre ++ ((mid : Option V).toList.map (Prod.mk k) ++ post) ∧
      (∀ e ∈ pre, lt e.1 k) ∧ ∀ e ∈ post, lt k e.1 by
    obtain ⟨pre, mid, post, rfl, hpre, hpost⟩ := this
    exact ⟨pre, mid, post, rfl, hpre, hpost, find_cut hpre hpost mid, alter_cut hpre hpost mid⟩
  induction m with
  | nil => exact ⟨[], none, [], by simp⟩
  | cons e m ih =>
    obtain ⟨k', v⟩ := e
    have hlt : ∀ e ∈ m, lt k' e.1 := (List.pairwise_cons.mp h).1
    rcases trichotomous (r := lt) k k' with hk | rfl | hk
    · refine ⟨[], none, (k', v) :: m, rfl, by simp, ?_⟩
      intro e he
      rcases List.mem_cons.mp he with rfl | he
      · exact hk
      · exact IsTrans.trans _ _ _ hk (hlt e he)
    · exact ⟨[], some v, m, rfl, by simp, hlt⟩
    · obtain ⟨pre, mid, post, rfl, hpre, hpost⟩ := ih h.tail
      refine ⟨(k', v) :: pre, mid, post, rfl, ?_, hpost⟩
      intro e he
      rcases List.mem_cons.mp he with rfl | he
      · exact hk
      · exact hpre e he

theorem Sorted.find_iff {m : List (K × V)} (h : Sorted lt m) {k : K} {v : V} :
    find lt k m = some v ↔ (k, v) ∈ m := by
  obtain ⟨pre, mid, post, rfl, hpre, hpost, hf, -⟩ := h.cut k
  rw [hf]
  have h₁ : (k, v) ∉ pre := fun hm => irrefl (r := lt) k (hpre _ hm)
  have h₂ : (k, v) ∉ post := fun hm => irrefl (r := lt) k (hpost _ hm)
  simp [h₁, h₂]

theorem Sorted.mem_alter {m : List (K × V)} (h : Sorted lt m) {k : K}
    {f : Option V → Option V} {e : K × V} :
    e ∈ OrderedMap.alter lt k f m ↔
      (e.1 ≠ k ∧ e ∈ m) ∨ (e.1 = k ∧ f (find lt k m) = some e.2) := by
  obtain ⟨pre, mid, post, rfl, hpre, hpost, hf, ha⟩ := h.cut k
  rw [ha f, hf]
  have h₁ : e ∈ pre → e.1 ≠ k := fun hm he => irrefl (r := lt) k (he ▸ hpre _ hm)
  have h₂ : e ∈ post → e.1 ≠ k := fun hm he => irrefl (r := lt) k (he ▸ hpost _ hm)
  obtain ⟨k', v⟩ := e
  simp only [List.mem_append, List.mem_map, Option.mem_toList, Prod.mk.injEq] at *
  constructor
  · rintro (hm | ⟨w, hw, rfl, rfl⟩ | hm)
    · exact Or.inl ⟨h₁ hm, Or.inl hm⟩
    · exact Or.inr ⟨rfl, hw⟩
    · exact Or.inl ⟨h₂ hm, Or.inr (Or.inr hm)⟩
  · rintro (⟨hne, hm | ⟨w, -, rfl, -⟩ | hm⟩ | ⟨rfl, hw⟩)
    · exact Or.inl hm
    · exact absurd rfl hne
    · exact Or.inr (Or.inr hm)
    · exact Or.inr (Or.inl ⟨v, hw, rfl, rfl⟩)

/-! ## Changing the values -/

/-- Every value changed by `g`; an entry whose value `g` drops is gone. -/
def filterMapValues {W : Type*} (g : V → Option W) (m : List (K × V)) : List (K × W) :=
  m.filterMap fun e => (g e.2).map (Prod.mk e.1)

section Values
variable {W : Type*} {g : V → Option W}

theorem filterMapValues_cut (pre post : List (K × V)) (k : K) (mid : Option V) :
    filterMapValues g (pre ++ (mid.toList.map (Prod.mk k) ++ post)) =
      filterMapValues g pre ++
        ((mid.bind g).toList.map (Prod.mk k) ++ filterMapValues g post) := by
  unfold filterMapValues
  rw [List.filterMap_append, List.filterMap_append]
  cases mid with
  | none => simp
  | some v => cases hv : g v <;> simp [hv]

theorem filterMapValues_keys {r : K → Prop} {m : List (K × V)} (h : ∀ e ∈ m, r e.1) :
    ∀ e ∈ filterMapValues g m, r e.1 := by
  intro e he
  obtain ⟨x, hx, hv⟩ := List.mem_filterMap.mp he
  obtain ⟨w, -, rfl⟩ := Option.map_eq_some_iff.mp hv
  exact h x hx

/-- A change at a key is seen through `g` as the change that agrees with it there. -/
theorem Sorted.filterMapValues_alter {m : List (K × V)} (h : Sorted lt m) {k : K}
    {f : Option V → Option V} {f' : Option W → Option W}
    (hf : (f (find lt k m)).bind g = f' ((find lt k m).bind g)) :
    filterMapValues g (OrderedMap.alter lt k f m) =
      OrderedMap.alter lt k f' (filterMapValues g m) := by
  obtain ⟨pre, mid, post, rfl, hpre, hpost, hfind, halter⟩ := h.cut k
  rw [hfind] at hf
  have hpre' := filterMapValues_keys (r := (lt · k)) (g := g) hpre
  have hpost' := filterMapValues_keys (r := lt k) (g := g) hpost
  rw [halter f, filterMapValues_cut, filterMapValues_cut, hf, alter_cut hpre' hpost']

/-- A change that `g` does not see. -/
theorem Sorted.filterMapValues_alter_same {m : List (K × V)} (h : Sorted lt m) {k : K}
    {f : Option V → Option V} (hf : (f (find lt k m)).bind g = (find lt k m).bind g) :
    filterMapValues g (OrderedMap.alter lt k f m) = filterMapValues g m := by
  obtain ⟨pre, mid, post, rfl, hpre, hpost, hfind, halter⟩ := h.cut k
  rw [hfind] at hf
  rw [halter f, filterMapValues_cut, filterMapValues_cut, hf]

end Values

end OrderedMap
