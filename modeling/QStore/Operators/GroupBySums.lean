import QStore.Operators.GroupBy

/-!
# QStore.Operators.GroupBySums

What a call of `sumby` or `minby` returns.  With several threads the kernel of `sumby` does
what it does with one, and a whole evaluation is one loop over all rows.  So each group gets
the sum and the number of its rows.  The text of `minby` does not compile.
-/

namespace QStore.Operators

open ByKey

variable {β : Type} {a : GroupBy β} {c : Code} {st x b : Buf β} {k : Nat → Nat}
  {cnts : List (Nat → Nat)} {r : Row β} {rs pre post : List (Row β)} {g : Nat}

/-! ## The two texts -/

/-- The statements of `sumby`. -/
def sumCode : Code where
  operating := .seq (.add .outVal .val) .skip
  merging := .seq (.add .outVal .vals) .skip

theorem compileOp_sumby : compileOp .sumby = some sumCode := by
  simp [compileOp, operatingCode, mergingCode, compileText, parseBlock, parseStmt, sumCode]

/-- Between the assignment and the brace there is no semicolon. -/
theorem compileOp_minby : compileOp .minby = none := by
  simp [compileOp, operatingCode, mergingCode, compileText, parseBlock, parseStmt]

theorem takeIn_sumCode (y : Cell β) (r : Row β) :
    a.takeIn sumCode y r =
      (a.T.add y.val r.val).map fun v => { val := v, cnt := y.cnt + 1 } := by
  simp only [GroupBy.takeIn, sumCode, exec, Regs.get]
  cases a.T.add y.val r.val with
  | none => simp
  | some v => simp [Regs.set]

theorem mergeCell_sumCode (k : Nat → Nat) (st : Buf β) (g : Nat) :
    a.mergeCell sumCode k st g =
      some (Function.update st g { val := (st g).val, cnt := (st g).cnt + k g }) := by
  simp [GroupBy.mergeCell, sumCode, exec, Regs.get, Regs.set, a.T.add_zero]

/-! ## Several threads -/

/-- What the threads have counted together. -/
def together (cnts : List (Nat → Nat)) (g : Nat) : Nat := (cnts.map (· g)).sum

theorem together_append (cnts : List (Nat → Nat)) (k : Nat → Nat) (g : Nat) :
    together (cnts ++ [k]) g = together cnts g + k g := by
  simp [together]

/-- A row adds to the counts, whatever they are. -/
theorem rowStep_plus (k : Nat → Nat) (x : Buf β) (r : Row β) :
    a.rowStep c (plus k x) r = (a.rowStep c x r).map (plus k) := by
  have hcell : a.takeIn c (plus k x r.grp.toNat) r =
      (a.takeIn c (x r.grp.toNat) r).map fun y =>
        { val := y.val, cnt := k r.grp.toNat + y.cnt } := by
    simp only [GroupBy.takeIn, plus, Option.map_map]
    congr 1
  have hupdate : ∀ y : Cell β, Function.update (plus k x) r.grp.toNat
      { val := y.val, cnt := k r.grp.toNat + y.cnt } =
      plus k (Function.update x r.grp.toNat y) := by
    intro y
    funext g
    by_cases hg : g = r.grp.toNat
    · subst hg
      simp [plus]
    · simp [plus, hg]
  simp only [GroupBy.rowStep]
  split
  · simp [Except.map]
  · split
    · simp [Except.map]
    · split
      · rw [stepAt, hcell, stepAt]
        cases a.takeIn c (x r.grp.toNat) r with
        | none => simp [orUndefined, Except.map]
        | some y => simp [orUndefined, Except.map, hupdate]
      · simp [Except.map]

theorem foldlM_rowStep_plus (k : Nat → Nat) (x : Buf β) (rs : List (Row β)) :
    rs.foldlM (a.rowStep c) (plus k x) = (rs.foldlM (a.rowStep c) x).map (plus k) := by
  induction rs generalizing x with
  | nil => simp [Except.map, pure, Except.pure]
  | cons r rs ih =>
      rw [List.foldlM_cons, List.foldlM_cons, rowStep_plus]
      cases h : a.rowStep c x r with
      | error e => simp [Except.map, bind, Except.bind]
      | ok y => simpa [Except.map, bind, Except.bind] using ih y

/-- The threads do what one loop over all their rows does, once what they have counted is
added. -/
theorem threads_eq (bs : List (List (Row β))) (st : Buf β) (cnts : List (Nat → Nat)) :
    bs.flatten.foldlM (a.rowStep c) (plus (together cnts) st) =
      (a.threads c bs st cnts).map fun p => plus (together p.2) p.1 := by
  induction bs generalizing st cnts with
  | nil => simp [GroupBy.threads, Except.map, pure, Except.pure]
  | cons rs bs ih =>
      have hclear : plus (together cnts) st =
          plus (fun g => together cnts g + (st g).cnt) fun g => ⟨(st g).val, 0⟩ := by
        funext g
        simp [plus]
      rw [List.flatten_cons, List.foldlM_append, hclear, foldlM_rowStep_plus, GroupBy.threads]
      cases h : rs.foldlM (a.rowStep c) fun g => ⟨(st g).val, 0⟩ with
      | error e => simp [Except.map, bind, Except.bind]
      | ok x =>
          have hnext : plus (fun g => together cnts g + (st g).cnt) x =
              plus (together (cnts ++ [fun g => (x g).cnt])) fun g => ⟨(x g).val, (st g).cnt⟩ := by
            funext g
            simp only [plus, together_append, Cell.mk.injEq, true_and]
            omega
          simp only [Except.map, bind, Except.bind]
          rw [hnext, ih]
          simp [Except.map]

/-- No row changes an entry behind the last group. -/
theorem rowStep_outside (h : a.rowStep c st r = .ok x) (hg : a.nb ≤ g) : x g = st g := by
  simp only [GroupBy.rowStep] at h
  split at h
  · rw [Except.ok.injEq] at h
    rw [h]
  · split at h
    · simp at h
    · split at h
      · next hin =>
          simp only [GroupBy.inside, Bool.and_eq_true, decide_eq_true_eq] at hin
          rw [stepAt] at h
          cases hcell : a.takeIn c (st r.grp.toNat) r with
          | none => simp [hcell, orUndefined] at h
          | some y =>
              simp only [hcell, Option.map_some, orUndefined, Except.ok.injEq] at h
              rw [← h, Function.update_of_ne]
              omega
      · simp at h

theorem foldlM_rowStep_outside (h : rs.foldlM (a.rowStep c) st = .ok x) (hg : a.nb ≤ g) :
    x g = st g := by
  induction rs generalizing st with
  | nil =>
      simp only [List.foldlM_nil, pure, Except.pure, Except.ok.injEq] at h
      rw [h]
  | cons r rs ih =>
      rw [List.foldlM_cons] at h
      cases hr : a.rowStep c st r with
      | error e => simp [hr, bind, Except.bind] at h
      | ok y =>
          simp only [hr, bind, Except.bind] at h
          rw [ih h, rowStep_outside hr hg]

/-- No thread counts anything behind the last group. -/
theorem threads_outside {bs : List (List (Row β))} {p : Buf β × List (Nat → Nat)}
    (h : a.threads c bs st cnts = .ok p) (hcnts : ∀ k ∈ cnts, k g = 0) (hg : a.nb ≤ g) :
    ∀ k ∈ p.2, k g = 0 := by
  induction bs generalizing st cnts with
  | nil =>
      simp only [GroupBy.threads, Except.ok.injEq] at h
      simpa [← h] using hcnts
  | cons rs bs ih =>
      rw [GroupBy.threads] at h
      cases hx : rs.foldlM (a.rowStep c) fun g => ⟨(st g).val, 0⟩ with
      | error e => simp [hx, bind, Except.bind] at h
      | ok x =>
          simp only [hx, bind, Except.bind] at h
          apply ih h
          intro k hk
          cases List.mem_append.mp hk with
          | inl hk => exact hcnts k hk
          | inr hk =>
              rw [List.mem_singleton.mp hk]
              simp [foldlM_rowStep_outside hx hg]

/-- The inner loop of the merge adds what one thread has counted. -/
theorem mergeThread_eq (k : Nat → Nat) (st : Buf β) (n : Nat) :
    (List.range n).foldlM (a.mergeCell sumCode k) st =
      some fun g => if g < n then { val := (st g).val, cnt := (st g).cnt + k g } else st g := by
  induction n with
  | zero => simp
  | succ n ih =>
      rw [List.range_succ, List.foldlM_append, ih]
      simp only [Option.bind_eq_bind, Option.bind_some, List.foldlM_cons, List.foldlM_nil,
        mergeCell_sumCode, Nat.lt_irrefl, if_false, Option.pure_def, Option.some.injEq]
      funext g
      by_cases hg : g = n
      · subst hg
        simp
      · have hlt : g < n + 1 ↔ g < n := by omega
        simp [hg, hlt]

/-- The merge adds what all threads have counted. -/
theorem merge_eq (hcnts : ∀ k ∈ cnts, ∀ g, a.nb ≤ g → k g = 0) (st : Buf β) :
    a.merge sumCode cnts st = some (plus (together cnts) st) := by
  induction cnts generalizing st with
  | nil =>
      simp only [GroupBy.merge, List.foldlM_nil, Option.pure_def, Option.some.injEq]
      funext g
      simp [plus, together]
  | cons k cnts ih =>
      have ih := ih fun k' hk => hcnts k' (by simp [hk])
      simp only [GroupBy.merge] at ih ⊢
      rw [List.foldlM_cons, mergeThread_eq, Option.bind_eq_bind, Option.bind_some, ih]
      congr 1
      funext g
      by_cases hg : g < a.nb
      · simp only [plus, hg, if_true, together, List.map_cons, List.sum_cons, Cell.mk.injEq,
          true_and]
        omega
      · have hk := hcnts k (by simp) g (by omega)
        simp [plus, hg, together, hk]

/-- The threads' rows are the rows of the chunk, in order. -/
theorem flatten_blocks (nT blockSize : Nat) (chunk : List (Row β)) (hnT : 0 < nT)
    (h : nT * blockSize ≤ chunk.length) : (blocks nT blockSize chunk).flatten = chunk := by
  obtain ⟨n, rfl⟩ : ∃ n, nT = n + 1 := ⟨nT - 1, by omega⟩
  have hfull : (List.range n).map (fun t =>
      (chunk.drop (t * blockSize)).take ((if t = n then chunk.length
        else t * blockSize + blockSize) - t * blockSize)) = slices blockSize n chunk := by
    apply List.map_congr_left
    intro t ht
    have hne : t ≠ n := by
      have := List.mem_range.mp ht
      omega
    rw [if_neg hne, Nat.add_sub_cancel_left, Nat.mul_comm]
  have hlast : (chunk.drop (n * blockSize)).take (chunk.length - n * blockSize) =
      chunk.drop (n * blockSize) :=
    List.take_of_length_le (by simp)
  rw [blocks, List.range_succ, List.map_append]
  simp only [Nat.add_sub_cancel, List.flatten_append, List.map_cons, List.map_nil, if_true,
    List.flatten_cons, List.flatten_nil, List.append_nil, hlast, hfull, flatten_slices]
  rw [Nat.mul_comm, List.take_append_drop]

/-- However many threads there are, the kernel of `sumby` runs over the rows in order. -/
theorem kernel_sumCode {chunk : List (Row β)} (hne : chunk ≠ []) (hnb : 16 * a.nb % 2 ^ 32 ≠ 0)
    (st : Buf β) : a.kernel sumCode chunk st = chunk.foldlM (a.rowStep sumCode) st := by
  have hlen : chunk.length ≠ 0 := by simpa using hne
  have hnb' : a.nb ≠ 0 := Nat.ne_of_gt a.nb_pos
  simp only [GroupBy.kernel, if_neg hlen, if_neg hnb', if_neg hnb]
  split
  · rfl
  · generalize hnT : max 1 (min (chunk.length / (16 * a.nb % 2 ^ 32)) a.nT2) = nT
    have hflat := flatten_blocks nT (chunk.length / nT) chunk (by omega)
      (Nat.mul_div_le chunk.length nT)
    have hzero : plus (together []) st = st := by
      funext g
      simp [plus, together]
    have hloop := threads_eq (a := a) (c := sumCode) (blocks nT (chunk.length / nT) chunk) st []
    rw [hflat, hzero] at hloop
    rw [hloop]
    cases h : a.threads sumCode (blocks nT (chunk.length / nT) chunk) st [] with
    | error e => simp [Except.map, bind, Except.bind]
    | ok p =>
        have hmerge : a.merge sumCode p.2 p.1 = some (plus (together p.2) p.1) :=
          merge_eq (fun k hk g hg => threads_outside h (by simp) hg k hk) p.1
        simp [Except.map, bind, Except.bind, hmerge, orUndefined]

/-! ## The whole evaluation -/

/-- Both buffers, as the expander has made them. -/
def GroupBy.zeros (a : GroupBy β) : Buf β := fun _ => { val := a.T.zero, cnt := 0 }

/-- From a chunk on the evaluation runs over the rows from there on. -/
theorem evalFrom_sumCode (hnb : 16 * a.nb % 2 ^ 32 ≠ 0) {fuel l : Nat}
    (hl : l = 0 ∨ l * a.rows.maxNumInChunk ≤ a.rows.elems.length)
    (hfuel : a.rows.elems.length < fuel + l * a.rows.maxNumInChunk) (st : Buf β) :
    a.evalFrom sumCode fuel l st =
      (a.rows.elems.drop (l * a.rows.maxNumInChunk)).foldlM (a.rowStep sumCode) st := by
  have hpos := a.rows.pos
  induction fuel generalizing l st with
  | zero =>
      cases hl with
      | inl hl =>
          subst hl
          omega
      | inr hl => omega
  | succ fuel ih =>
      have hlen := LVector.length_getChunk (v := a.rows) (i := l)
      have hnext : (l + 1) * a.rows.maxNumInChunk =
          l * a.rows.maxNumInChunk + a.rows.maxNumInChunk := by
        rw [Nat.add_mul, Nat.one_mul]
      rw [GroupBy.evalFrom]
      by_cases hempty : (a.rows.getChunk l).length = 0
      · have hend : a.rows.elems.length ≤ l * a.rows.maxNumInChunk := by omega
        have hl0 : l ≠ 0 := by
          intro h0
          have := List.length_pos_iff.mpr a.rows_ne
          subst h0
          omega
        simp [hempty, hl0, List.drop_eq_nil_of_le hend, pure, Except.pure]
      · have hne : a.rows.getChunk l ≠ [] := by
          simpa using hempty
        have hsplit : a.rows.elems.drop (l * a.rows.maxNumInChunk) =
            a.rows.getChunk l ++ a.rows.elems.drop ((l + 1) * a.rows.maxNumInChunk) := by
          rw [LVector.getChunk, page_append_drop]
        rw [hsplit, List.foldlM_append]
        simp only [if_neg hempty, kernel_sumCode hne hnb]
        congr 1
        funext st
        split
        · next hshort =>
            have hend : a.rows.elems.length ≤ (l + 1) * a.rows.maxNumInChunk := by omega
            simp [List.drop_eq_nil_of_le hend, pure, Except.pure]
        · next hfull =>
            apply ih
            · right
              omega
            · omega

/-- The evaluation of `sumby` is one loop over the rows. -/
theorem eval_sumby (hop : a.op = .sumby) (hnb : a.nb % 2 ^ 28 ≠ 0) :
    a.eval = a.rows.elems.foldlM (a.rowStep sumCode) a.zeros := by
  have h16 : 16 * a.nb % 2 ^ 32 ≠ 0 := by omega
  have hall : a.evalFrom sumCode (a.rows.elems.length + 1) 0 a.zeros = _ :=
    evalFrom_sumCode h16 (.inl rfl) (by omega) a.zeros
  rw [Nat.zero_mul, List.drop_zero] at hall
  rw [GroupBy.eval, hop, compileOp_sumby]
  exact hall

/-- Where `16 * nR_out` overflows to zero, the first call of the kernel divides by it. -/
theorem eval_wraps (hop : a.op = .sumby) (hnb : a.nb % 2 ^ 28 = 0) :
    a.eval = .error .undefined := by
  have h16 : 16 * a.nb % 2 ^ 32 = 0 := by omega
  have hnb' : a.nb ≠ 0 := Nat.ne_of_gt a.nb_pos
  have hlen : (a.rows.getChunk 0).length ≠ 0 := by
    have h1 := LVector.length_getChunk (v := a.rows) (i := 0)
    have h2 := List.length_pos_iff.mpr a.rows_ne
    have h3 := a.rows.pos
    omega
  rw [GroupBy.eval, hop, compileOp_sumby]
  simp only [GroupBy.evalFrom, GroupBy.kernel, if_neg hlen, if_neg hnb', h16, if_true]
  simp [bind, Except.bind]

theorem eval_minby (hop : a.op = .minby) : a.eval = .error .bye := by
  rw [GroupBy.eval, hop, compileOp_minby]

/-! ## What is asked of it -/

/-- The rows that count: those for which the condition holds. -/
def GroupBy.counted (a : GroupBy β) : List (Row β) := a.rows.elems.filter fun r => !a.skips r

/-- Values of group `g` among some rows. -/
def valuesOf (rs : List (Row β)) (g : Nat) : List β :=
  (rs.filter fun r => r.grp = (g : Int)).map (·.val)

/-- Values of group `g` that count. -/
def GroupBy.values (a : GroupBy β) (g : Nat) : List β := valuesOf a.counted g

/-- A sum, where it and the sums on the way to it fit. -/
def OutType.total (T : OutType β) (vs : List β) : Option β := vs.foldlM T.add T.zero

/-- The value that a group is to get: the sum of its values, or the smallest of them if it has
any. -/
def GroupBy.IsVal (a : GroupBy β) (g : Nat) (y : β) : Prop :=
  match a.op with
  | .sumby => a.T.total (a.values g) = some y
  | .minby => a.values g ≠ [] → y ∈ a.values g ∧ ∀ v ∈ a.values g, a.T.lt v y = false

/-- Each group gets its value and the number of its rows, and where the call is to be safe it
fails for a group that is none. -/
structure GroupBy.Right (a : GroupBy β) : Prop where
  inside : (∀ r ∈ a.rows.elems, a.inside r) → ∃ b, a.eval = .ok b ∧
    ∀ g, g < a.nb → (b g).cnt = (a.values g).length ∧ a.IsVal g (b g).val
  outside : a.isSafe → (∃ r ∈ a.rows.elems, ¬ a.inside r) → a.eval = .error .bye

/-- All groups lie in range or the call is to be safe, and sums fit. -/
structure GroupBy.Asked (a : GroupBy β) : Prop where
  inRange : (∀ r ∈ a.rows.elems, a.inside r) ∨ a.isSafe
  fits : a.op = .sumby → ∀ g, g < a.nb → (a.T.total (a.values g)).isSome

/-- When it is so: for `minby` only where it is to fail. For `sumby` where `16 * nR_out` does
not overflow to zero, and the check catches no row if all are in range, and otherwise one
that counts before any that counts is out of range unnoticed. -/
def GroupBy.Sound (a : GroupBy β) : Prop :=
  match a.op with
  | .minby => ∃ r ∈ a.rows.elems, ¬ a.inside r
  | .sumby => a.nb % 2 ^ 28 ≠ 0 ∧ (a.isSafe →
      ((∀ r ∈ a.rows.elems, a.inside r) → ∀ r ∈ a.counted, ¬ a.caught r.grp) ∧
      ((∃ r ∈ a.rows.elems, ¬ a.inside r) → ∃ pre r post, a.counted = pre ++ r :: post ∧
        a.caught r.grp ∧ ∀ r' ∈ pre, a.inside r'))

/-! ## Rows that are taken in -/

theorem foldlM_counted (rs : List (Row β)) (st : Buf β) :
    rs.foldlM (a.rowStep c) st = (rs.filter fun r => !a.skips r).foldlM (a.rowStep c) st := by
  induction rs generalizing st with
  | nil => simp
  | cons r rs ih =>
      by_cases hr : a.skips r = true
      · have hstep : a.rowStep c st r = .ok st := by
          rw [GroupBy.rowStep, if_pos hr]
        rw [List.foldlM_cons, hstep, List.filter_cons_of_neg (by simp [hr])]
        simpa [bind, Except.bind] using ih st
      · rw [List.filter_cons_of_pos (by simp [hr]), List.foldlM_cons, List.foldlM_cons]
        congr 1
        funext y
        exact ih y

theorem mem_of_mem_counted (h : r ∈ a.counted) : r ∈ a.rows.elems := (List.mem_filter.mp h).1

theorem skips_of_mem_counted (h : r ∈ a.counted) : a.skips r = false := by
  simpa using (List.mem_filter.mp h).2

/-- Rows that the check lets pass and that are in range are taken in by group. -/
theorem foldlM_inside (h : ∀ r ∈ rs, a.skips r = false ∧ (a.isSafe && a.caught r.grp) = false ∧
    a.inside r = true) (st : Buf β) :
    rs.foldlM (a.rowStep c) st = orUndefined (rs.foldlM (stepAt (a.takeIn c) (·.grp.toNat)) st) := by
  induction rs generalizing st with
  | nil => simp [orUndefined, pure, Except.pure]
  | cons r rs ih =>
      obtain ⟨hskip, hcheck, hin⟩ := h r (by simp)
      have hstep : a.rowStep c st r =
          orUndefined (stepAt (a.takeIn c) (·.grp.toNat) st r) := by
        simp [GroupBy.rowStep, hskip, hcheck, hin]
      rw [List.foldlM_cons, List.foldlM_cons, hstep]
      cases stepAt (a.takeIn c) (·.grp.toNat) st r with
      | none => simp [orUndefined, bind, Except.bind]
      | some y => simpa [orUndefined, bind, Except.bind] using ih (fun q hq => h q (by simp [hq])) y

/-- What rows leave in the entry of their group: the sum of their values, and their number. -/
theorem foldlM_takeIn (rs : List (Row β)) (y : Cell β) :
    rs.foldlM (a.takeIn sumCode) y =
      ((rs.map (·.val)).foldlM a.T.add y.val).map fun v => ⟨v, y.cnt + rs.length⟩ := by
  induction rs generalizing y with
  | nil => simp
  | cons r rs ih =>
      rw [List.foldlM_cons, takeIn_sumCode, List.map_cons, List.foldlM_cons]
      cases a.T.add y.val r.val with
      | none => simp
      | some v =>
          simp only [Option.map_some, Option.bind_eq_bind, Option.bind_some, ih, List.length_cons]
          congr 1
          funext w
          simp only [Cell.mk.injEq, true_and]
          omega

theorem rowsOf_inside (h : ∀ r ∈ rs, a.inside r = true) (g : Nat) :
    (rowsOf (·.grp.toNat) g rs).map (·.val) = valuesOf rs g ∧
      (rowsOf (·.grp.toNat) g rs).length = (valuesOf rs g).length := by
  have hsame : rowsOf (·.grp.toNat) g rs = rs.filter fun r => r.grp = (g : Int) := by
    apply List.filter_congr
    intro r hr
    have hin := h r hr
    simp only [GroupBy.inside, Bool.and_eq_true, decide_eq_true_eq] at hin
    simp only [decide_eq_decide]
    omega
  rw [hsame]
  exact ⟨rfl, by simp [valuesOf]⟩

theorem valuesOf_append (pre post : List (Row β)) (g : Nat) :
    valuesOf (pre ++ post) g = valuesOf pre g ++ valuesOf post g := by
  simp [valuesOf]

/-- In range there are values of the groups only. -/
theorem valuesOf_outside (h : ∀ r ∈ rs, a.inside r = true) (hg : a.nb ≤ g) : valuesOf rs g = [] := by
  rw [valuesOf, List.map_eq_nil_iff, List.filter_eq_nil_iff]
  intro r hr
  have hin := h r hr
  simp only [GroupBy.inside, Bool.and_eq_true, decide_eq_true_eq] at hin
  simp only [decide_eq_true_eq]
  omega

/-- Rows that count and are let in leave in each group the sum and the number of theirs. -/
theorem eval_pre (hfits : ∀ g, g < a.nb → (a.T.total (a.values g)).isSome)
    (hcounted : a.counted = pre ++ post) (hin : ∀ r ∈ pre, a.inside r = true)
    (hcheck : ∀ r ∈ pre, (a.isSafe && a.caught r.grp) = false) :
    ∃ b, pre.foldlM (a.rowStep sumCode) a.zeros = .ok b ∧
      ∀ g, (b g).cnt = (valuesOf pre g).length ∧ a.T.total (valuesOf pre g) = some (b g).val := by
  have htotal : ∀ g, ∃ y, a.T.total (valuesOf pre g) = some y := by
    intro g
    by_cases hg : g < a.nb
    · have hall := hfits g hg
      rw [GroupBy.values, hcounted, valuesOf_append, OutType.total, List.foldlM_append] at hall
      rw [OutType.total]
      cases h : (valuesOf pre g).foldlM a.T.add a.T.zero with
      | none => simp [h] at hall
      | some y => exact ⟨y, rfl⟩
    · rw [valuesOf_outside hin (by omega)]
      exact ⟨a.T.zero, by simp [OutType.total]⟩
  choose val hval using htotal
  have hloop := foldlM_inside (c := sumCode) (fun r hr =>
    ⟨skips_of_mem_counted (by simp [hcounted, hr]), hcheck r hr, hin r hr⟩) a.zeros
  have htable : pre.foldlM (stepAt (a.takeIn sumCode) (·.grp.toNat)) a.zeros =
      some fun g => { val := val g, cnt := (valuesOf pre g).length } := by
    apply foldlM_stepAt
    intro g
    obtain ⟨hmap, hlen⟩ := rowsOf_inside hin g
    have htot := hval g
    rw [OutType.total] at htot
    rw [foldlM_takeIn, hmap, hlen]
    simp [GroupBy.zeros, htot]
  rw [htable] at hloop
  exact ⟨_, hloop, fun g => ⟨rfl, hval g⟩⟩

/-- What the first row does that the check catches, or that is out of range. -/
theorem foldlM_stops (hpre : pre.foldlM (a.rowStep c) st = .ok b) (hskip : a.skips r = false)
    (post : List (Row β)) :
    (a.isSafe = true → a.caught r.grp = true →
      (pre ++ r :: post).foldlM (a.rowStep c) st = .error .bye) ∧
    ((a.isSafe && a.caught r.grp) = false → a.inside r = false →
      (pre ++ r :: post).foldlM (a.rowStep c) st = .error .undefined) := by
  have hrun : (pre ++ r :: post).foldlM (a.rowStep c) st =
      (a.rowStep c b r).bind fun y => post.foldlM (a.rowStep c) y := by
    simp [List.foldlM_append, hpre, bind, Except.bind]
  constructor
  · intro hsafe hcaught
    rw [hrun]
    simp [GroupBy.rowStep, hskip, hsafe, hcaught, Except.bind]
  · intro hcheck hout
    rw [hrun]
    simp [GroupBy.rowStep, hskip, hcheck, hout, Except.bind]

/-- Whether a row is taken in. -/
def GroupBy.passes (a : GroupBy β) (r : Row β) : Bool :=
  !(a.isSafe && a.caught r.grp) && a.inside r

theorem passes_eq_true : a.passes r = true ↔
    (a.isSafe && a.caught r.grp) = false ∧ a.inside r = true := by
  rw [GroupBy.passes, Bool.and_eq_true, Bool.not_eq_true']

/-- The first row that is not taken in. -/
theorem all_or_first (p : Row β → Bool) (rs : List (Row β)) :
    (∀ r ∈ rs, p r = true) ∨
      ∃ pre r post, rs = pre ++ r :: post ∧ (∀ q ∈ pre, p q = true) ∧ p r = false := by
  induction rs with
  | nil => exact .inl (by simp)
  | cons r rs ih =>
      cases hr : p r with
      | false => exact .inr ⟨[], r, rs, rfl, by simp, hr⟩
      | true =>
          cases ih with
          | inl hall => exact .inl (by simpa [hr] using hall)
          | inr hfirst =>
              obtain ⟨pre, q, post, hrs, hpre, hq⟩ := hfirst
              exact .inr ⟨r :: pre, q, post, by simp [hrs], by simpa [hr] using hpre, hq⟩

/-! ## What the evaluation of sumby gives -/

variable (hop : a.op = .sumby) (hnb : a.nb % 2 ^ 28 ≠ 0)
  (hfits : ∀ g, g < a.nb → (a.T.total (a.values g)).isSome)

include hop hnb hfits

/-- Every row that counts is taken in: each group has its sum and the number of its rows. -/
theorem eval_of_passes (h : ∀ r ∈ a.counted, a.passes r = true) :
    ∃ b, a.eval = .ok b ∧
      ∀ g, (b g).cnt = (a.values g).length ∧ a.T.total (a.values g) = some (b g).val := by
  obtain ⟨b, hb, hcells⟩ := eval_pre hfits (List.append_nil a.counted).symm
    (fun r hr => (passes_eq_true.mp (h r hr)).2) (fun r hr => (passes_eq_true.mp (h r hr)).1)
  rw [eval_sumby hop hnb, foldlM_counted]
  exact ⟨b, hb, hcells⟩

/-- A row that counts is not taken in: the first of them ends the call. -/
theorem eval_of_first (hcounted : a.counted = pre ++ r :: post)
    (hpre : ∀ q ∈ pre, a.passes q = true) (hr : a.passes r = false) :
    ((a.isSafe && a.caught r.grp) = true ∧ a.eval = .error .bye) ∨
      ((a.isSafe && a.caught r.grp) = false ∧ a.inside r = false ∧
        a.eval = .error .undefined) := by
  obtain ⟨b, hb, _⟩ := eval_pre hfits hcounted
    (fun q hq => (passes_eq_true.mp (hpre q hq)).2) (fun q hq => (passes_eq_true.mp (hpre q hq)).1)
  have hskip : a.skips r = false := skips_of_mem_counted (by simp [hcounted])
  obtain ⟨hbye, hundef⟩ := foldlM_stops hb hskip post
  rw [eval_sumby hop hnb, foldlM_counted]
  rw [← GroupBy.counted, hcounted]
  cases hcheck : a.isSafe && a.caught r.grp with
  | true =>
      rw [Bool.and_eq_true] at hcheck
      exact .inl ⟨rfl, hbye hcheck.1 hcheck.2⟩
  | false =>
      have hout : a.inside r = false := by
        simpa [GroupBy.passes, hcheck] using hr
      exact .inr ⟨rfl, hout, hundef hcheck hout⟩

/-- `sumby` does what is asked exactly where the check is right. -/
theorem right_iff_of_sumby :
    a.Right ↔ (a.isSafe →
      ((∀ r ∈ a.rows.elems, a.inside r) → ∀ r ∈ a.counted, ¬ a.caught r.grp) ∧
      ((∃ r ∈ a.rows.elems, ¬ a.inside r) → ∃ pre r post, a.counted = pre ++ r :: post ∧
        a.caught r.grp ∧ ∀ r' ∈ pre, a.inside r')) := by
  constructor
  · intro h hsafe
    constructor
    · intro hall r hr hcaught
      obtain ⟨b, hb, _⟩ := h.inside hall
      cases all_or_first a.passes a.counted with
      | inl hpass =>
          have := (passes_eq_true.mp (hpass r hr)).1
          simp [hsafe, hcaught] at this
      | inr hfirst =>
          obtain ⟨pre, q, post, hcounted, hpre, hq⟩ := hfirst
          cases eval_of_first hop hnb hfits hcounted hpre hq with
          | inl hbye => simp [hb] at hbye
          | inr hundef => simp [hb] at hundef
    · intro hout
      have hbye := h.outside hsafe hout
      cases all_or_first a.passes a.counted with
      | inl hpass =>
          obtain ⟨b, hb, _⟩ := eval_of_passes hop hnb hfits hpass
          simp [hb] at hbye
      | inr hfirst =>
          obtain ⟨pre, q, post, hcounted, hpre, hq⟩ := hfirst
          cases eval_of_first hop hnb hfits hcounted hpre hq with
          | inl hcaught =>
              simp only [hsafe, Bool.true_and] at hcaught
              exact ⟨pre, q, post, hcounted, hcaught.1,
                fun r' hr' => (passes_eq_true.mp (hpre r' hr')).2⟩
          | inr hundef => simp [hbye] at hundef
  · intro h
    constructor
    · intro hall
      have hpass : ∀ r ∈ a.counted, a.passes r = true := by
        intro r hr
        rw [passes_eq_true]
        constructor
        · cases hsafe : a.isSafe with
          | false => simp
          | true => simpa using (h hsafe).1 hall r hr
        · exact hall r (mem_of_mem_counted hr)
      obtain ⟨b, hb, hcells⟩ := eval_of_passes hop hnb hfits hpass
      exact ⟨b, hb, fun g _ => ⟨(hcells g).1, by
        rw [GroupBy.IsVal, hop]
        exact (hcells g).2⟩⟩
    · intro hsafe hout
      obtain ⟨pre, r, post, hcounted, hcaught, hpre⟩ := (h hsafe).2 hout
      -- the first row that is not taken in comes no later than the one that is caught
      cases all_or_first a.passes (pre ++ [r]) with
      | inl hpass =>
          have := (passes_eq_true.mp (hpass r (by simp))).1
          simp [hsafe, hcaught] at this
      | inr hfirst =>
          obtain ⟨pre', q, post', hsplit, hpre', hq⟩ := hfirst
          have hcounted' : a.counted = pre' ++ q :: (post' ++ post) := by
            rw [hcounted, ← List.singleton_append, ← List.append_assoc, hsplit]
            simp
          cases eval_of_first hop hnb hfits hcounted' hpre' hq with
          | inl hbye => exact hbye.2
          | inr hundef =>
              have hmem : q ∈ pre ++ [r] := by simp [hsplit]
              cases List.mem_append.mp hmem with
              | inl hmem => simp [hpre q hmem] at hundef
              | inr hmem => simp [List.mem_singleton.mp hmem, hsafe, hcaught] at hundef

omit hop hnb hfits

/-! ## When a call does what is asked -/

/-- For fewer than 2^28 groups the check is that of the range. -/
theorem caught_iff_of_lt (hnb : a.nb < 2 ^ 28) (r : Row β) :
    a.caught r.grp = true ↔ ¬ a.inside r = true := by
  have hbound : a.bound = a.nb := by
    have hsmall : a.nROut = a.nb := by
      rw [GroupBy.nROut, if_pos (by omega)]
    rw [GroupBy.bound, hsmall]
    split <;> omega
  simp only [GroupBy.caught, GroupBy.inside, hbound, Bool.or_eq_true, decide_eq_true_eq,
    Bool.and_eq_true]
  omega

/-- So with fewer groups `sumby` is right unless the only rows out of range do not count. -/
theorem sound_of_lt (hop : a.op = .sumby) (hnb : a.nb < 2 ^ 28) :
    a.Sound ↔ (a.isSafe → (∃ r ∈ a.rows.elems, ¬ a.inside r) → ∃ r ∈ a.counted, ¬ a.inside r) := by
  have hpos := a.nb_pos
  rw [GroupBy.Sound, hop]
  simp only [caught_iff_of_lt hnb]
  constructor
  · intro h hsafe hout
    obtain ⟨pre, r, post, hcounted, hr, _⟩ := (h.2 hsafe).2 hout
    exact ⟨r, by simp [hcounted], hr⟩
  · intro h
    refine ⟨by omega, fun hsafe => ⟨?_, ?_⟩⟩
    · intro hall r hr
      simpa using hall r (mem_of_mem_counted hr)
    · intro hout
      obtain ⟨r, hr, hnot⟩ := h hsafe hout
      cases all_or_first a.inside a.counted with
      | inl hall => exact absurd (hall r hr) hnot
      | inr hfirst =>
          obtain ⟨pre, q, post, hcounted, hpre, hq⟩ := hfirst
          exact ⟨pre, q, post, hcounted, by simp [hq], hpre⟩

/-- A call does what is asked of it exactly where it is `sumby`, `16 * nR_out` is not zero, and
the check of a safe call is right. -/
theorem groupByRight_iff (h : a.Asked) : a.Right ↔ a.Sound := by
  rw [GroupBy.Sound]
  cases hop : a.op with
  | sumby =>
      have hfits := h.fits hop
      simp only
      by_cases hnb : a.nb % 2 ^ 28 = 0
      · have heval := eval_wraps hop hnb
        simp only [hnb, ne_eq, not_true_eq_false, false_and, iff_false]
        intro hright
        by_cases hall : ∀ r ∈ a.rows.elems, a.inside r
        · obtain ⟨b, hb, _⟩ := hright.inside hall
          simp [heval] at hb
        · have hsafe : a.isSafe := h.inRange.resolve_left hall
          have hbye := hright.outside hsafe (by simpa using hall)
          simp [heval] at hbye
      · rw [right_iff_of_sumby hop hnb hfits]
        simp only [ne_eq, hnb, not_false_eq_true, true_and]
  | minby =>
      have heval := eval_minby hop
      constructor
      · intro hright
        by_cases hall : ∀ r ∈ a.rows.elems, a.inside r
        · obtain ⟨b, hb, _⟩ := hright.inside hall
          simp [heval] at hb
        · simpa using hall
      · intro hout
        constructor
        · intro hall
          obtain ⟨r, hr, hnot⟩ := hout
          exact absurd (hall r hr) hnot
        · intro _ _
          exact heval

/-- Four rows in two groups, of which one does not count. -/
def fourRows (op : ByOp) : GroupBy Int64 where
  op := op
  T := int64
  rows := { elems := [⟨5, 0, true⟩, ⟨-7, 1, true⟩, ⟨9, 0, false⟩, ⟨6, 0, true⟩],
            maxNumInChunk := 64, pos := sixtyFour_pos }
  grpQtype := .I4
  nb := 2
  hasCnd := true
  isSafe := true
  nT2 := 1
  rows_ne := by simp
  nb_pos := Nat.two_pos
  nb_lt := by simp
  team := .inl rfl

theorem groupByRight_fourRows : (fourRows .sumby).Right := by
  have hall : ∀ r ∈ (fourRows .sumby).rows.elems, (fourRows .sumby).inside r := by decide
  have hfits : ∀ g, g < 2 →
      ((fourRows .sumby).T.total ((fourRows .sumby).values g)).isSome := by decide
  apply (groupByRight_iff ⟨.inl hall, fun _ => hfits⟩).mpr
  rw [sound_of_lt rfl (by decide)]
  intro _ hout
  obtain ⟨r, hr, hnot⟩ := hout
  exact absurd (hall r hr) hnot

/-- `minby` on the same rows fails, where group 0 has the smallest value 5 and group 1 the
value -7. -/
theorem groupByRight_fails : (fourRows .minby).eval = .error .bye ∧ ¬ (fourRows .minby).Right := by
  have heval : (fourRows .minby).eval = .error .bye := eval_minby rfl
  constructor
  · exact heval
  · intro h
    obtain ⟨b, hb, _⟩ := h.inside (by decide)
    simp [heval] at hb

end QStore.Operators
