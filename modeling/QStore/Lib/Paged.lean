import QStore.Lib.MapM
import QStore.Lib.Pages
import QStore.Lib.Pull

/-!
# QStore.Lib.Paged

A generator whose chunk `k` is page `k` of a list.

```
list   a b c d e f g      n = 3
pulled a b c | d e f | g
```

The last page is the first that is not full; it is empty where `n` divides the length. What the
generator is left with there may be of interest to whoever comes next, so a pull is to a state
(`PullsTo`).
-/

namespace QStore

variable {σ α β γ : Type} {gen : Gen σ β} {n k : Nat} {s s' : σ} {outs : List (List β)} {ys : List β}

/-- Pulled from chunk `k` on, the generator gives the chunks `outs`, and is left in a state. -/
inductive PullsTo (gen : Gen σ β) (n : Nat) : σ → Nat → List (List β) → σ → Prop
  | last {s s' : σ} {k : Nat} {out : List β} (h : gen s k = some (out, s')) (hn : out.length ≠ n) :
      PullsTo gen n s k [out] s'
  | more {s s' s'' : σ} {k : Nat} {out : List β} {outs : List (List β)}
      (h : gen s k = some (out, s')) (hn : out.length = n)
      (hrest : PullsTo gen n s' (k + 1) outs s'') : PullsTo gen n s k (out :: outs) s''

theorem PullsTo.pulls (h : PullsTo gen n s k outs s') : Pulls gen n s k outs := by
  induction h with
  | last h hn => exact .last h hn
  | more h hn _ ih => exact .more h hn ih

/-- A generator leaves one state. -/
theorem PullsTo.unique {outs' : List (List β)} {s'' : σ} (h : PullsTo gen n s k outs s')
    (h' : PullsTo gen n s k outs' s'') : outs = outs' ∧ s' = s'' := by
  induction h generalizing outs' with
  | last hg hn =>
      cases h' with
      | last hg' _ => simp_all
      | more hg' hn' _ => simp_all
  | more hg hn _ ih =>
      cases h' with
      | last hg' hn' => simp_all
      | more hg' _ hrest' =>
          rw [hg, Option.some.injEq, Prod.mk.injEq] at hg'
          obtain ⟨rfl, rfl⟩ := hg'
          obtain ⟨rfl, rfl⟩ := ih hrest'
          exact ⟨rfl, rfl⟩

/-- **Page by page**: the generator gives the list, and is left as its last call leaves it. -/
theorem PullsTo.of_pages (I : σ → Nat → Prop) (J : σ → Prop) (hn : 0 < n)
    (hstep : ∀ s k, I s k → k * n ≤ ys.length → ∃ s', gen s k = some (page n ys k, s') ∧
      ((page n ys k).length = n → I s' (k + 1)) ∧ ((page n ys k).length < n → J s'))
    (h : I s 0) : ∃ outs s', PullsTo gen n s 0 outs s' ∧ outs.flatten = ys ∧ J s' := by
  suffices hfrom : ∀ len k s, ys.length - k * n = len → I s k → k * n ≤ ys.length →
      ∃ outs s', PullsTo gen n s k outs s' ∧ outs.flatten = ys.drop (k * n) ∧ J s' by
    simpa using hfrom _ 0 s rfl h (by simp)
  intro len
  induction len using Nat.strongRecOn with
  | _ len ih =>
      intro k s hlen hI hk
      obtain ⟨s', hgen, hnext, hlast⟩ := hstep s k hI hk
      have hpage := length_page (p := n) (D := ys) (i := k)
      by_cases hfull : (page n ys k).length = n
      · have hle : (k + 1) * n ≤ ys.length := by
          rw [Nat.add_mul, Nat.one_mul]
          omega
        obtain ⟨outs, s'', hpulls, hflat, hJ⟩ :=
          ih _ (by rw [Nat.add_mul, Nat.one_mul]; omega) (k + 1) s' rfl (hnext hfull) hle
        exact ⟨_, s'', .more hgen hfull hpulls, by rw [List.flatten_cons, hflat, page_append_drop], hJ⟩
      · have hshort : (page n ys k).length < n := by omega
        refine ⟨_, s', .last hgen hfull, ?_, hlast hshort⟩
        rw [List.flatten_singleton, ← page_append_drop (p := n) (i := k),
          drop_eq_nil_of_short_page hshort, List.append_nil]

/-- The last page is empty where the size of a page divides the length. -/
theorem dvd_length_iff (hk : k * n ≤ ys.length) (hshort : (page n ys k).length < n) :
    n ∣ ys.length ↔ (page n ys k).length = 0 := by
  have hlen : ys.length = k * n + (page n ys k).length := by
    rw [length_page] at hshort ⊢
    omega
  rw [hlen, Nat.dvd_add_right (Nat.dvd_mul_left n k)]
  exact ⟨fun hd => Nat.eq_zero_of_dvd_of_lt hd hshort, fun h0 => h0 ▸ Nat.dvd_zero n⟩

/-- The same, where it does not matter how the generator is left. -/
theorem Pulls.of_pages (I : σ → Nat → Prop) (hn : 0 < n)
    (hstep : ∀ s k, I s k → ∃ s', gen s k = some (page n ys k, s') ∧
      ((page n ys k).length = n → I s' (k + 1))) (h : I s 0) :
    ∃ outs, Pulls gen n s 0 outs ∧ outs.flatten = ys := by
  obtain ⟨outs, s', hpulls, hflat, -⟩ := PullsTo.of_pages I (fun _ => True) hn
    (fun s k hs _ => by
      obtain ⟨s', hgen, hnext⟩ := hstep s k hs
      exact ⟨s', hgen, hnext, fun _ => trivial⟩) h
  exact ⟨outs, hpulls.pulls, hflat⟩

/-- A generator that counts its chunks, and stays where it is past the end. -/
theorem Pulls.of_counter {gen : Gen Nat β} (hn : 0 < n)
    (hgen : ∀ k, gen k k =
      if page n ys k = [] then some ([], k) else some (page n ys k, k + 1)) :
    ∃ outs, Pulls gen n 0 0 outs ∧ outs.flatten = ys := by
  refine Pulls.of_pages (fun s k => s = k) hn ?_ rfl
  rintro k _ rfl
  by_cases hnil : page n ys k = []
  · exact ⟨k, by simp [hgen, hnil], fun hfull => by simp [hnil] at hfull; omega⟩
  · exact ⟨k + 1, by simp [hgen, hnil], fun _ => rfl⟩

/-- **What is pulled**, of a generator that gives a page or fails: the list, and of each of its
entries what the generator makes sure of before it gives it. -/
theorem Pulls.forall_pages (ys : List β) (good : Nat → Prop)
    (hgen : ∀ s k out s', gen s k = some (out, s') →
      out = page n ys k ∧ ∀ i < (page n ys k).length, good (k * n + i))
    (h : Pulls gen n s k outs) :
    outs.flatten = ys.drop (k * n) ∧ ∀ i < ys.length, k * n ≤ i → good i := by
  induction h with
  | @last s s' k out hg hn =>
      obtain ⟨rfl, hgood⟩ := hgen _ _ _ _ hg
      have hlen := length_page (p := n) (D := ys) (i := k)
      refine ⟨?_, fun i hi hk => ?_⟩
      · rw [List.flatten_singleton, ← page_append_drop (p := n) (i := k),
          drop_eq_nil_of_short_page (by omega), List.append_nil]
      · obtain ⟨j, rfl⟩ := Nat.exists_eq_add_of_le hk
        exact hgood j (by omega)
  | @more s s' k out outs hg hn _ ih =>
      obtain ⟨rfl, hgood⟩ := hgen _ _ _ _ hg
      obtain ⟨hflat, hrest⟩ := ih
      refine ⟨by rw [List.flatten_cons, hflat, page_append_drop], fun i hi hk => ?_⟩
      rw [Nat.add_mul, Nat.one_mul] at hrest
      obtain ⟨j, rfl⟩ := Nat.exists_eq_add_of_le hk
      by_cases hj : j < n
      · exact hgood j (by omega)
      · exact hrest _ hi (by omega)

/-- A page of what is made entry by entry. -/
theorem page_map (f : α → β) (xs : List α) : page n (xs.map f) k = (page n xs k).map f := by
  simp [page, List.map_take, List.map_drop]

theorem page_zipWith (f : α → β → γ) (xs : List α) (zs : List β) :
    page n (xs.zipWith f zs) k = (page n xs k).zipWith f (page n zs k) := by
  simp [page, List.take_zipWith, List.drop_zipWith]

/-- A page of what is made position by position. -/
theorem page_map_range (f : Nat → β) (len : Nat) : page n ((List.range len).map f) k =
    (List.range (min n (len - k * n))).map fun i => f (k * n + i) := by
  refine List.ext_getElem (by simp [length_page]) fun i hi hi' => ?_
  simp [page]

/-! ## row by row -/

section Rows

variable {gen : Gen Nat β} {f : α → Option β} {xs : List α}
  (hgen : ∀ s k, gen s k = if k ≠ s then none else if (page n xs k).length = 0 then some ([], s)
    else ((page n xs k).mapM f).map fun out => (out, s + 1))
include hgen

end Rows

end QStore
