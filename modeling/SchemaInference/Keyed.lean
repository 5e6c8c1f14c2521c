/-!
# Keyed lists

Lists of pairs in which every key stands once, in the order in which the keys were
first used.  A value that is put under a key again replaces the earlier one in its
place.
-/

namespace SchemaInference.Keyed

variable {κ α : Type} [DecidableEq κ]

/-- Puts `v` under `k`, in place if the key is used and at the end if not. -/
def put (k : κ) (v : α) : List (κ × α) → List (κ × α)
  | [] => [(k, v)]
  | (l, w) :: rest => if l = k then (k, v) :: rest else (l, w) :: put k v rest

def get? (k : κ) : List (κ × α) → Option α
  | [] => none
  | (l, w) :: rest => if l = k then some w else get? k rest

theorem put_append_of_unused {k : κ} {front : List (κ × α)} (unused : k ∉ front.map Prod.fst)
    (v : α) (back : List (κ × α)) : put k v (front ++ back) = front ++ put k v back := by
  induction front with
  | nil => rfl
  | cons entry rest ih =>
      simp only [List.map_cons, List.mem_cons, not_or] at unused
      rw [List.cons_append, put, if_neg (Ne.symm unused.1), ih unused.2, List.cons_append]

theorem put_of_unused {k : κ} {v : α} {entries : List (κ × α)}
    (unused : k ∉ entries.map Prod.fst) : put k v entries = entries ++ [(k, v)] := by
  simpa [put] using put_append_of_unused unused v []

theorem get?_append_of_unused {k : κ} {front : List (κ × α)} (unused : k ∉ front.map Prod.fst)
    (back : List (κ × α)) : get? k (front ++ back) = get? k back := by
  induction front with
  | nil => rfl
  | cons entry rest ih =>
      simp only [List.map_cons, List.mem_cons, not_or] at unused
      rw [List.cons_append, get?, if_neg (Ne.symm unused.1), ih unused.2]

theorem exists_put_of_used {k : κ} {w : α} {entries : List (κ × α)}
    (used : get? k entries = some w) : ∃ front back, entries = front ++ (k, w) :: back ∧
      ∀ v, put k v entries = front ++ (k, v) :: back := by
  induction entries with
  | nil => cases used
  | cons entry rest ih =>
      obtain ⟨l, u⟩ := entry
      by_cases heq : l = k
      · subst heq
        rw [get?, if_pos rfl] at used
        cases used
        exact ⟨[], rest, rfl, fun v => by rw [put, if_pos rfl]; rfl⟩
      · rw [get?, if_neg heq] at used
        obtain ⟨front, back, rfl, replaced⟩ := ih used
        exact ⟨(l, u) :: front, back, rfl, fun v => by rw [put, if_neg heq, replaced]; rfl⟩

theorem get?_eq_none_iff {k : κ} {entries : List (κ × α)} :
    get? k entries = none ↔ k ∉ entries.map Prod.fst := by
  induction entries with
  | nil => simp [get?]
  | cons entry rest ih =>
      obtain ⟨l, w⟩ := entry
      by_cases heq : l = k
      · simp [get?, heq]
      · simp [get?, heq, Ne.symm heq, ih]

@[simp] theorem get?_put (k l : κ) (v : α) (entries : List (κ × α)) :
    get? l (put k v entries) = if l = k then some v else get? l entries := by
  induction entries with
  | nil => simp [put, get?, eq_comm]
  | cons entry rest ih =>
      obtain ⟨m, w⟩ := entry
      by_cases hm : m = k
      · subst hm
        simp only [put, if_true, get?]
        by_cases hl : m = l
        · simp [hl]
        · simp [hl, Ne.symm hl]
      · simp only [put, hm, if_false, get?, ih]
        by_cases hl : m = l
        · subst hl; simp [hm]
        · simp [hl]

theorem mem_keys_put {k l : κ} {v : α} {entries : List (κ × α)} :
    l ∈ (put k v entries).map Prod.fst ↔ l = k ∨ l ∈ entries.map Prod.fst := by
  induction entries with
  | nil => simp [put]
  | cons entry rest ih =>
      obtain ⟨m, w⟩ := entry
      by_cases h : m = k
      · simp [put, h]
      · simp only [put, h, if_false, List.map_cons, List.mem_cons, ih]
        grind

theorem nodup_keys_put {k : κ} {v : α} {entries : List (κ × α)}
    (h : (entries.map Prod.fst).Nodup) : ((put k v entries).map Prod.fst).Nodup := by
  induction entries with
  | nil => simp [put]
  | cons entry rest ih =>
      obtain ⟨m, w⟩ := entry
      obtain ⟨unused, later⟩ := List.nodup_cons.1 h
      by_cases heq : m = k
      · subst heq
        simpa [put] using h
      · simp only [put, heq, if_false, List.map_cons]
        refine List.nodup_cons.2 ⟨fun hmem => ?_, ih later⟩
        exact (mem_keys_put.1 hmem).elim heq unused

theorem mem_of_mem_put {k : κ} {v : α} {entries : List (κ × α)} {entry : κ × α}
    (h : entry ∈ put k v entries) : entry = (k, v) ∨ entry ∈ entries := by
  induction entries with
  | nil => exact .inl (List.mem_singleton.1 h)
  | cons first rest ih =>
      obtain ⟨m, w⟩ := first
      by_cases heq : m = k
      · rw [put, if_pos heq] at h
        exact (List.mem_cons.1 h).imp_right (List.mem_cons_of_mem _)
      · rw [put, if_neg heq] at h
        rcases List.mem_cons.1 h with rfl | h
        · exact .inr List.mem_cons_self
        · exact (ih h).imp_right (List.mem_cons_of_mem _)

theorem mem_of_get?_eq_some {k : κ} {v : α} {entries : List (κ × α)}
    (h : get? k entries = some v) : (k, v) ∈ entries := by
  induction entries with
  | nil => cases h
  | cons entry rest ih =>
      obtain ⟨l, w⟩ := entry
      by_cases heq : l = k
      · rw [get?, if_pos heq] at h
        cases h
        cases heq
        exact List.mem_cons_self
      · rw [get?, if_neg heq] at h
        exact List.mem_cons_of_mem _ (ih h)

theorem get?_eq_some_iff {k : κ} {v : α} {entries : List (κ × α)}
    (distinct : (entries.map Prod.fst).Nodup) : get? k entries = some v ↔ (k, v) ∈ entries := by
  induction entries with
  | nil => simp [get?]
  | cons entry rest ih =>
      obtain ⟨l, w⟩ := entry
      obtain ⟨unused, later⟩ := List.nodup_cons.1 distinct
      by_cases h : l = k
      · subst h
        have absent : (l, v) ∉ rest := fun hmem => unused (List.mem_map.2 ⟨(l, v), hmem, rfl⟩)
        simp [get?, absent, eq_comm]
      · simp [get?, h, Ne.symm h, ih later]

/-- Lists with distinct keys hold the same entries if they have the same values. -/
theorem perm_of_get?_eq {entries others : List (κ × α)}
    (distinct : (entries.map Prod.fst).Nodup) (distinct' : (others.map Prod.fst).Nodup)
    (same : ∀ k, get? k entries = get? k others) : entries.Perm others := by
  have nodup {es : List (κ × α)} (h : (es.map Prod.fst).Nodup) : es.Nodup :=
    (List.pairwise_map.1 h).imp fun hne heq => hne (congrArg Prod.fst heq)
  refine (List.perm_ext_iff_of_nodup (nodup distinct) (nodup distinct')).2 fun (k, v) => ?_
  rw [← get?_eq_some_iff distinct, ← get?_eq_some_iff distinct', same]

end SchemaInference.Keyed
