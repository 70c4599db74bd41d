/-!
# QStore.Lib.MapM

A list mapped by a function that may fail.  The map fails where the function does on some entry,
and otherwise has a value for each.
-/

namespace QStore

variable {α β γ : Type} {f g : α → Option β} {xs : List α} {ys : List β}

theorem mapM_congr (h : ∀ x ∈ xs, f x = g x) : xs.mapM f = xs.mapM g := by
  induction xs with
  | nil => rfl
  | cons x xs ih =>
      rw [List.mapM_cons, List.mapM_cons, h x (by simp), ih fun z hz => h z (by simp [hz])]

/-- A map that is defined everywhere. -/
theorem mapM_eq_map {f : α → Option β} {g : α → β} (h : ∀ x ∈ xs, f x = some (g x)) :
    xs.mapM f = some (xs.map g) := by
  induction xs with
  | nil => simp
  | cons x xs ih =>
      rw [List.mapM_cons, h x (by simp), ih fun y hy => h y (by simp [hy])]
      simp

/-- A map that fails at one entry. -/
theorem mapM_eq_none {x : α} (hx : x ∈ xs) (hf : f x = none) : xs.mapM f = none := by
  induction xs with
  | nil => simp at hx
  | cons y ys ih =>
      cases List.mem_cons.mp hx with
      | inl hy => simp [← hy, hf]
      | inr hy => cases hfy : f y <;> simp [hfy, ih hy]

/-- The value of each entry. -/
theorem mapM_eq_some_iff : xs.mapM f = some ys ↔ xs.map f = ys.map some := by
  constructor
  · intro h
    induction xs generalizing ys with
    | nil => simp_all
    | cons x xs ih =>
        rw [List.mapM_cons] at h
        obtain ⟨y, hy, h⟩ := Option.bind_eq_some_iff.mp h
        obtain ⟨zs, hzs, h⟩ := Option.bind_eq_some_iff.mp h
        cases Option.some.inj h
        rw [List.map_cons, List.map_cons, hy, ih hzs]
  · intro h
    have hid : (ys.map some).mapM id = some ys := by
      rw [List.mapM_map]
      simpa using List.mapM_pure (m := Option) (f := id) (l := ys)
    rw [← hid, ← h, List.mapM_map, Function.id_comp]

/-- Two maps that may fail, one after the other or entry by entry. -/
theorem mapM_bind (f : α → Option β) (g : β → Option γ) (xs : List α) :
    (xs.mapM fun x => (f x).bind g) = (xs.mapM f).bind fun ys => ys.mapM g := by
  induction xs with
  | nil => rfl
  | cons x xs ih =>
      cases hf : f x with
      | none => simp [hf]
      | some y =>
          cases hfs : xs.mapM f with
          | none => cases hg : g y <;> simp [hf, hfs, ih, hg]
          | some ys => simp [hf, hfs, ih]

/-- What holds of all that the entries are mapped to. -/
theorem forall_of_mapM {P : β → Prop} (h : xs.mapM f = some ys)
    (hP : ∀ x ∈ xs, ∀ y, f x = some y → P y) : ys.length = xs.length ∧ ∀ y ∈ ys, P y := by
  rw [mapM_eq_some_iff] at h
  refine ⟨by simpa using (congrArg List.length h).symm, fun y hy => ?_⟩
  have hmem : some y ∈ xs.map f := by
    rw [h]
    exact List.mem_map_of_mem hy
  obtain ⟨x, hx, hxy⟩ := List.mem_map.mp hmem
  exact hP x hx y hxy

/-- The last entry is mapped to the last one. -/
theorem getLast?_mapM {x : α} (hx : xs.getLast? = some x) (h : xs.mapM f = some ys) :
    ∃ y, f x = some y ∧ ys.getLast? = some y := by
  rw [mapM_eq_some_iff] at h
  have hlast := congrArg List.getLast? h
  rw [List.getLast?_map, List.getLast?_map, hx, Option.map_some, eq_comm,
    Option.map_eq_some_iff] at hlast
  obtain ⟨y, hy, hxy⟩ := hlast
  exact ⟨y, hxy.symm, hy⟩

end QStore
