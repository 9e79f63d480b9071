import Mathlib

/-!
# Sequences of words, separated or terminated

A sequence of words over an alphabet is written down in two ways: separated by a letter that occurs
in no word (`List.intercalate`), or with that letter after every word (`terminate`).  The second
form loses nothing and turns prefixes of sequences into prefixes of lists: a terminated sequence is
a prefix of another exactly when the words are (`terminate_isPrefix_iff`).  Of two words where one
is a proper prefix of the other, neither's terminated form is a prefix of the other's.

If the letter is below all others, it keeps the lexicographic order too (`terminate_lt_iff`).

Words can also just follow each other.  Then every letter stands in one of them
(`exists_take_flatten`).
-/

set_option autoImplicit false

section

variable {α β : Type*}

/-- Every word followed by the letter `z`. -/
def terminate (z : α) (ws : List (List α)) : List α := ws.flatMap (· ++ [z])

@[simp] theorem terminate_nil (z : α) : terminate z [] = [] := rfl

@[simp] theorem terminate_cons (z : α) (w : List α) (ws : List (List α)) :
    terminate z (w :: ws) = w ++ z :: terminate z ws := by
  simp [terminate]

@[simp] theorem terminate_append (z : α) (ws vs : List (List α)) :
    terminate z (ws ++ vs) = terminate z ws ++ terminate z vs := by
  simp [terminate]

/-- A word without the terminator is read off a list in one way only. -/
theorem append_cons_inj_of_notMem {z : α} {w v : List α} {r s : List α} (hw : z ∉ w) (hv : z ∉ v)
    (h : w ++ z :: r = v ++ z :: s) : w = v ∧ r = s := by
  induction w generalizing v with
  | nil =>
    cases v with
    | nil => exact ⟨rfl, by simpa using h⟩
    | cons a v => exact absurd (by rw [(List.cons.inj h).1]; simp) hv
  | cons a w ih =>
    cases v with
    | nil => exact absurd (by rw [(List.cons.inj h).1]; simp) hw
    | cons b v =>
      rw [List.cons_append, List.cons_append, List.cons.injEq] at h
      obtain ⟨hwv, hrs⟩ := ih (fun hz ↦ hw (List.mem_cons_of_mem _ hz))
        (fun hz ↦ hv (List.mem_cons_of_mem _ hz)) h.2
      exact ⟨by rw [h.1, hwv], hrs⟩

/-- **Prefixes of sequences are prefixes of terminated sequences.** -/
theorem terminate_isPrefix_iff {z : α} {ws vs : List (List α)} (hw : ∀ w ∈ ws, z ∉ w)
    (hv : ∀ v ∈ vs, z ∉ v) : terminate z ws <+: terminate z vs ↔ ws <+: vs := by
  induction ws generalizing vs with
  | nil => simp
  | cons w ws ih =>
    cases vs with
    | nil => simp
    | cons v vs =>
      have hw' : ∀ w ∈ ws, z ∉ w := fun x hx ↦ hw x (List.mem_cons_of_mem _ hx)
      have hv' : ∀ v ∈ vs, z ∉ v := fun x hx ↦ hv x (List.mem_cons_of_mem _ hx)
      rw [terminate_cons, terminate_cons, List.cons_prefix_cons, ← ih hw' hv']
      constructor
      · rintro ⟨t, ht⟩
        rw [List.append_assoc, List.cons_append] at ht
        obtain ⟨hwv, ht⟩ := append_cons_inj_of_notMem (hw w (by simp)) (hv v (by simp)) ht
        exact ⟨hwv, t, ht⟩
      · rintro ⟨rfl, t, ht⟩
        exact ⟨t, by rw [← ht]; simp⟩

/-- Two prefixes of one sequence compare as their terminated forms do. -/
theorem length_terminate_lt {z : α} {ws vs us : List (List α)} (hws : ws <+: us) (hvs : vs <+: us) :
    (terminate z ws).length < (terminate z vs).length ↔ ws.length < vs.length := by
  rcases List.prefix_or_prefix_of_prefix hws hvs with ⟨t, rfl⟩ | ⟨t, rfl⟩
  · cases t with
    | nil => simp
    | cons w t => simp [terminate_append]
  · simp [terminate_append]

/-- The separated form lacks the last terminator only. -/
theorem intercalate_append {s : α} {ws : List (List α)} (hne : ws ≠ []) :
    List.intercalate [s] ws ++ [s] = terminate s ws := by
  induction ws with
  | nil => exact absurd rfl hne
  | cons w ws ih =>
    cases ws with
    | nil => simp [List.intercalate]
    | cons v vs =>
      rw [terminate_cons, ← ih (by simp)]
      simp [List.intercalate]

/-- The letters of the words between the separators. -/
theorem mem_of_mem_splitOn [DecidableEq α] {z a : α} {l w : List α}
    (hw : w ∈ l.splitOn z) (ha : a ∈ w) : a ≠ z ∧ a ∈ l := by
  induction l generalizing w with
  | nil =>
    rw [List.splitOn_nil, List.mem_singleton] at hw
    exact absurd ha (hw ▸ List.not_mem_nil)
  | cons b l ih =>
    rw [List.splitOn_cons_eq_if_modifyHead] at hw
    obtain ⟨v, vs, hv⟩ := List.exists_cons_of_ne_nil (List.splitOn_ne_nil z l)
    rw [hv] at hw ih
    have htail : ∀ u ∈ v :: vs, a ∈ u → a ≠ z ∧ a ∈ b :: l := fun u hu ha ↦
      (ih hu ha).imp_right (List.mem_cons_of_mem _)
    split at hw
    · rcases List.mem_cons.mp hw with rfl | hw
      · exact absurd ha List.not_mem_nil
      · exact htail w hw ha
    · -- the letter belongs to the first word
      rename_i hne
      rw [List.modifyHead_cons] at hw
      rcases List.mem_cons.mp hw with rfl | hw
      · rcases List.mem_cons.mp ha with rfl | ha
        · exact ⟨by simpa using hne, List.mem_cons_self⟩
        · exact htail v List.mem_cons_self ha
      · exact htail w (List.mem_cons_of_mem _ hw) ha

/-- The separated form ends with the last word. -/
theorem getLast?_intercalate (z : α) (ws : List (List α)) {w : List α}
    (hw : w ≠ []) : (List.intercalate [z] (ws ++ [w])).getLast? = w.getLast? := by
  have h : List.intercalate [z] (ws ++ [w]) ++ [z] = terminate z (ws ++ [w]) :=
    intercalate_append (by simp)
  rw [terminate_append, terminate_cons, terminate_nil, ← List.append_assoc] at h
  rw [List.append_cancel_right h, List.getLast?_append_of_ne_nil _ hw]

theorem map_terminate (f : α → β) (z : α) (ws : List (List α)) :
    (terminate z ws).map f = terminate (f z) (ws.map (List.map f)) := by
  induction ws with
  | nil => rfl
  | cons w ws ih => simp [ih]

theorem flatMap_terminate {f : α → List β} {z : α} {z' : β} (hz : f z = [z'])
    (ws : List (List α)) :
    (terminate z ws).flatMap f = terminate z' (ws.map (List.flatMap f)) := by
  induction ws with
  | nil => rfl
  | cons w ws ih => simp [ih, hz]

theorem mem_terminate {z a : α} {ws : List (List α)} (h : a ∈ terminate z ws) :
    a = z ∨ ∃ w ∈ ws, a ∈ w := by
  rw [terminate, List.mem_flatMap] at h
  obtain ⟨w, hw, ha⟩ := h
  rcases List.mem_append.mp ha with ha | ha
  · exact .inr ⟨w, hw, ha⟩
  · exact .inl (by simpa using ha)

/-! ## Order -/

section order

variable [LinearOrder α] {z : α}

/-- With a letter below all of theirs behind them, two words compare before what follows them. -/
theorem append_cons_lt_iff {w v r s : List α} (hw : ∀ a ∈ w, z < a) (hv : ∀ a ∈ v, z < a) :
    w ++ z :: r < v ++ z :: s ↔ w < v ∨ w = v ∧ r < s := by
  induction w generalizing v with
  | nil =>
    cases v with
    | nil => simp
    | cons b v => simp [List.cons_lt_cons_iff, hv b List.mem_cons_self]
  | cons a w ih =>
    obtain ⟨ha, hw⟩ := List.forall_mem_cons.mp hw
    cases v with
    | nil => simp [List.cons_lt_cons_iff, ha.not_gt, ha.ne']
    | cons b v =>
      obtain ⟨hb, hv⟩ := List.forall_mem_cons.mp hv
      rw [List.cons_append, List.cons_append, List.cons_lt_cons_iff, List.cons_lt_cons_iff,
        List.cons.injEq, ih hw hv]
      tauto

/-- **Terminated sequences compare as the sequences do**, word by word. -/
theorem terminate_lt_iff {ws vs : List (List α)} (hw : ∀ w ∈ ws, ∀ a ∈ w, z < a)
    (hv : ∀ v ∈ vs, ∀ a ∈ v, z < a) : terminate z ws < terminate z vs ↔ ws < vs := by
  induction ws generalizing vs with
  | nil =>
    cases vs with
    | nil => simp
    | cons v vs => cases v <;> simp
  | cons w ws ih =>
    obtain ⟨hw, hws⟩ := List.forall_mem_cons.mp hw
    cases vs with
    | nil => simp
    | cons v vs =>
      obtain ⟨hv, hvs⟩ := List.forall_mem_cons.mp hv
      rw [terminate_cons, terminate_cons, append_cons_lt_iff hw hv, List.cons_lt_cons_iff,
        ih hws hvs]

end order

/-- **Every place in a text is in one of its words**, or at the front of it. -/
theorem exists_take_flatten {ws : List (List α)} {n : ℕ} (h : n < ws.flatten.length) :
    ∃ (j : ℕ) (w : List α) (m : ℕ), ws[j]? = some w ∧ m < w.length ∧
      n = (ws.take j).flatten.length + m ∧
      ws.flatten.take n = (ws.take j).flatten ++ w.take m := by
  induction ws generalizing n with
  | nil => exact absurd h (Nat.not_lt_zero n)
  | cons w ws ih =>
    rw [List.flatten_cons, List.length_append] at h
    by_cases hn : n < w.length
    · refine ⟨0, w, n, rfl, hn, (Nat.zero_add n).symm, ?_⟩
      rw [List.flatten_cons, List.take_append_of_le_length hn.le]
      rfl
    · obtain ⟨j, v, m, hj, hm, heq, htake⟩ := ih (n := n - w.length) (by omega)
      refine ⟨j + 1, v, m, hj, hm, ?_, ?_⟩
      · rw [List.take_succ_cons, List.flatten_cons, List.length_append]
        omega
      · rw [List.take_succ_cons, List.flatten_cons, List.flatten_cons, List.append_assoc, ← htake,
          List.take_append, List.take_of_length_le (Nat.not_lt.mp hn)]

end
