import SchemaInference.Proofs.LeastUpperBound

/-!
# Joining collections

The strict join finds least upper bounds, of two types as well as of a collection of
types that agree pairwise and are no unions: such a collection holds primitives and
arrays only, or records that all overlap.
-/

namespace SchemaInference

open Schema

namespace Strict

theorem mem_candidates {t : Schema} {ts : List Schema} :
    t ∈ candidates ts ↔ t ∈ ts ∧ t ≠ null := by
  simp [candidates]

theorem nodup_eraseDups {α : Type} [DecidableEq α] (xs : List α) : xs.eraseDups.Nodup := by
  -- the rest of the list is filtered before it is deduplicated, hence the recursion on its length
  induction h : xs.length using Nat.strongRecOn generalizing xs with
  | ind n ih =>
    cases xs with
    | nil => simp
    | cons x rest =>
      rw [List.eraseDups_cons]
      refine List.nodup_cons.2 ⟨by simp, ih _ ?_ _ rfl⟩
      have := List.length_filter_le (fun y => !y == x) rest
      simp only [List.length_cons] at h
      omega

theorem nodup_candidates (ts : List Schema) : (candidates ts).Nodup :=
  (nodup_eraseDups ts).filter _

theorem candidates_perm {ts us : List Schema} (same : ts.Perm us) :
    (candidates ts).Perm (candidates us) := by
  apply (List.perm_ext_iff_of_nodup (nodup_candidates ts) (nodup_candidates us)).2
  intro t
  rw [mem_candidates, mem_candidates, same.mem_iff]

theorem candidates_of_nodup {ts : List Schema} (distinct : ts.Nodup) (full : ∀ t ∈ ts, t ≠ null) :
    candidates ts = ts := by
  have deduped {us : List Schema} (h : us.Nodup) : us.eraseDups = us := by
    induction us with
    | nil => rfl
    | cons u rest ih =>
      obtain ⟨unused, later⟩ := List.nodup_cons.1 h
      have kept : (rest.filter fun v => !v == u) = rest :=
        List.filter_eq_self.2 fun v hv => by simpa using fun e : v = u => unused (e ▸ hv)
      rw [List.eraseDups_cons, kept, ih later]
  rw [candidates, deduped distinct]
  exact List.filter_eq_self.2 fun t ht => by simpa using full t ht

theorem candidates_pair {a b : Schema} (ne : a ≠ b) (ha : a ≠ null) (hb : b ≠ null) :
    candidates [a, b] = [a, b] :=
  candidates_of_nodup (by simpa using ne) (by simp [ha, hb])

end Strict

theorem mapM_record?_eq_some {ts : List Schema} {rs : List Record} :
    ts.mapM record? = some rs ↔ ts = rs.map Record.schema := by
  induction ts generalizing rs with
  | nil => cases rs <;> simp
  | cons t ts ih =>
    cases rs with
    | nil => simp [List.mapM_cons, Option.bind_eq_some_iff]
    | cons r rs =>
      simp only [List.mapM_cons, Option.bind_eq_bind, Option.bind_eq_some_iff, List.map_cons,
        List.cons.injEq]
      constructor
      · rintro ⟨q, hq, qs, hqs, h⟩
        cases h
        exact ⟨(schema_of_record? hq).symm, ih.1 hqs⟩
      · rintro ⟨rfl, h⟩
        exact ⟨r, rfl, rs, ih.2 h, rfl⟩

theorem filterMap_record?_schema (rs : List Record) :
    (rs.map Record.schema).filterMap record? = rs := by
  simp [List.filterMap_map, Function.comp_def]

theorem exists_eq_map {α β : Type} {make : α → β} {ys : List β}
    (made : ∀ y ∈ ys, ∃ x, y = make x) : ∃ xs : List α, ys = xs.map make := by
  induction ys with
  | nil => exact ⟨[], rfl⟩
  | cons y rest ih =>
    obtain ⟨⟨x, rfl⟩, later⟩ := List.forall_mem_cons.1 made
    obtain ⟨xs, rfl⟩ := ih later
    exact ⟨x :: xs, rfl⟩

theorem exists_records_of_agree {lax : Prop} {ts : List Schema}
    (flat : ∀ t ∈ ts, t.isUnion = false) (full : ∀ t ∈ ts, t ≠ null)
    (agree : ∀ s ∈ ts, ∀ t ∈ ts, Agree lax s t) (compound : ts.any isCompound = true) :
    ∃ (r : Record) (rs : List Record), ts = (r :: rs).map Record.schema := by
  obtain ⟨t, ht, isCompound⟩ := List.any_eq_true.1 compound
  obtain ⟨rs, rfl⟩ : ∃ rs : List Record, ts = rs.map Record.schema := by
    refine exists_eq_map fun s hs => ?_
    have meets := agree s hs t ht
    cases t with
    | record m gs =>
      cases s with
      | primitive k =>
        have heq : k = .null := by simpa [Agree] using meets
        exact absurd (congrArg primitive heq) (full _ hs)
      | array n items => simp [Agree] at meets
      | record n fs => exact ⟨⟨n, fs⟩, rfl⟩
      | union bs => cases flat _ hs
    | union bs => cases flat _ ht
    | _ => cases isCompound
  cases rs with
  | nil => cases ht
  | cons r rs => exact ⟨r, rs, rfl⟩

namespace Strict
variable {j : Join} {ts : List Schema}

theorem joinAllWith_of_plain (plain : ∀ t ∈ candidates ts, t.isCompound = false) :
    joinAllWith j ts = joinList (joinPlain .strict j) (candidates ts) := by
  have none : (candidates ts).any isCompound = false := by
    simpa using plain
  simp [joinAllWith, joinCandidates, none]

/-- To join a collection of two types is to join the two types. -/
theorem joinAllWith_pair {a b : Schema} (ne : a ≠ b) (fulla : a ≠ null)
    (fullb : b ≠ null) : joinAllWith j [a, b] = joinWith j a b := by
  simp only [joinWith, if_neg ne, if_neg fulla, if_neg fullb]
  split
  · rfl
  · next plain =>
    rw [Bool.or_eq_true, not_or, Bool.not_eq_true, Bool.not_eq_true] at plain
    rw [joinAllWith, candidates_pair ne fulla fullb, joinCandidates]
    simp only [List.any_cons, List.any_nil, plain.1, plain.2, Bool.or_self, Bool.false_eq_true,
      if_false]
    simp [joinList]

theorem joinAllWith_arrays {s t u : Schema} (ne : s ≠ t) (joined : j s t = .ok u) :
    joinAllWith j [.array none s, .array none t] = .ok (.array none u) := by
  rw [joinAllWith_pair (by simpa using ne) (by simp [null]) (by simp [null])]
  simp [joinWith, ne, null, isCompound, joinPlain, joined, Except.map]

theorem joinAllWith_of_records {r : Record} {rs : List Record}
    (h : candidates ts = (r :: rs).map Record.schema) :
    joinAllWith j ts = joinRecords j (r :: rs) := by
  rw [joinAllWith, joinCandidates, mapM_record?_eq_some.2 h, h]
  simp [Record.schema, isCompound]

theorem joinRecords_of_overlapping {r : Record} {rs : List Record}
    (overlap : ∀ a ∈ r :: rs, ∀ b ∈ r :: rs, a.overlaps b = true) :
    joinRecords j (r :: rs) = (rs.foldlM (Record.merge j) r).map Record.schema := by
  rw [joinRecords, Record.clusters_of_overlapping overlap]
  cases rs.foldlM (Record.merge j) r <;> rfl

/-- Records of one field join with an empty record beside them as the types of the field do. -/
theorem joinAllWith_beside_empty {name f : Text} {s t u : Schema} (ne : s ≠ t)
    (joined : j s t = .ok u) :
    joinAllWith j [.record name [], .record name [(f, s)], .record name [(f, t)]] =
      .ok (.record name [(f, u)]) := by
  have distinct : candidates [.record name [], .record name [(f, s)], .record name [(f, t)]] =
      [⟨name, []⟩, ⟨name, [(f, s)]⟩, ⟨name, [(f, t)]⟩].map Record.schema :=
    candidates_of_nodup (by simp [ne]) (by simp [null])
  have first : Record.merge j ⟨name, []⟩ ⟨name, [(f, s)]⟩ = .ok ⟨name, [(f, s)]⟩ := rfl
  have second : Record.merge j ⟨name, [(f, s)]⟩ ⟨name, [(f, t)]⟩ = .ok ⟨name, [(f, u)]⟩ :=
    Record.merge_of_one_field joined
  rw [joinAllWith_of_records distinct, joinRecords_of_overlapping (by simp [Record.overlaps,
    Record.field?]), List.foldlM_cons, first]
  simp [second, bind, Except.bind, pure, Except.pure, Except.map, Record.schema]

end Strict

namespace IsJoinOf
variable {ts : List Schema} {t c : Schema}

theorem of_candidates (h : IsJoinOf (Strict.candidates ts) c) : IsJoinOf ts c := by
  refine h.of_forall_mem (fun t ht => (Strict.mem_candidates.1 ht).1) fun t ht => ?_
  by_cases heq : t = null
  · exact .inr heq
  · exact .inl (Strict.mem_candidates.2 ⟨ht, heq⟩)

theorem ne_null (h : IsJoinOf ts c) (ht : t ∈ ts) (ne : t ≠ null) : c ≠ null := by
  rintro rfl
  exact ne (le_null_iff.1 (h.upper t ht))

theorem isCompound_eq_false (h : IsJoinOf ts c) (ht : t ∈ ts) (ne : t ≠ null)
    (plain : t.isCompound = false) : c.isCompound = false := by
  have hle := h.upper t ht
  cases t with
  | primitive k =>
    rcases primitive_le_iff.1 hle with rfl | ⟨l, rfl, _⟩
    · exact absurd rfl ne
    · rfl
  | array n s =>
    obtain ⟨m, u, rfl, _⟩ := array_le_iff.1 hle
    rfl
  | _ => cases plain

end IsJoinOf

namespace Joins
variable {j : Join} {level : Nat} {ts : List Schema} {c : Schema}

theorem mem_of_halfway {α : Type} {x y : α} {seen later rest : List α}
    (whole : seen ++ y :: later = rest) :
    y ∈ x :: rest ∧ ∀ z ∈ x :: seen, z ∈ x :: rest := by
  subst whole
  refine ⟨by simp, fun z hz => ?_⟩
  rcases List.mem_cons.1 hz with rfl | hz
  · exact List.mem_cons_self
  · exact List.mem_cons_of_mem x (List.mem_append_left _ hz)

section Plain
variable {seen : List Schema} {b u : Schema}

theorem isJoinOf_append (hj : Joins j level) (bound : IsJoinOf seen b)
    (low : ∀ s ∈ seen, s.height ≤ level) (canonical : u.Canonical) (lowu : u.height ≤ level)
    (meets : Agree True b u) (step : joinPlain .strict j b u = .ok c) :
    IsJoinOf (seen ++ [u]) c := by
  apply bound.append (.single canonical)
  exact hj.isJoinOf_plain bound.canonical canonical (bound.height_le level low) lowu meets step

/-- The join of plain types from left to right is their least upper bound. -/
theorem isJoinOf_joinList (hj : Joins j level) (canonical : ∀ t ∈ ts, t.Canonical)
    (low : ∀ t ∈ ts, t.height ≤ level) (agree : ∀ s ∈ ts, ∀ t ∈ ts, Agree True s t)
    (joined : joinList (joinPlain .strict j) ts = .ok c) : IsJoinOf ts c := by
  cases ts with
  | nil => cases joined; exact .nil
  | cons t rest =>
    refine foldlM_invariant (fun seen c => IsJoinOf (t :: seen) c) joined
      (.single (canonical t List.mem_cons_self)) ?_
    intro seen u later b d whole bound step
    obtain ⟨hu, mem⟩ := mem_of_halfway (x := t) whole
    apply hj.isJoinOf_append bound (fun s hs => low s (mem s hs)) (canonical u hu) (low u hu) _ step
    exact bound.agree True u (canonical u hu) fun s hs => agree s (mem s hs) u hu

theorem exists_joinList (hj : Joins j level) (canonical : ∀ t ∈ ts, t.Canonical)
    (low : ∀ t ∈ ts, t.height ≤ level) (plain : ∀ t ∈ ts, t.isCompound = false)
    (full : ∀ t ∈ ts, t ≠ null) (agree : ∀ s ∈ ts, ∀ t ∈ ts, Mergeable s t) :
    ∃ c, joinList (joinPlain .strict j) ts = .ok c := by
  cases ts with
  | nil => exact ⟨null, rfl⟩
  | cons t rest =>
    have ht : t ∈ t :: rest := List.mem_cons_self
    refine (exists_foldlM (fun seen c => IsJoinOf (t :: seen) c)
      (.single (canonical t ht)) ?_).imp fun _ h => h.1
    intro seen u later b whole bound
    obtain ⟨hu, mem⟩ := mem_of_halfway (x := t) whole
    have lowSeen : ∀ s ∈ t :: seen, s.height ≤ level := fun s hs => low s (mem s hs)
    have meets : Mergeable b u :=
      bound.agree False u (canonical u hu) fun s hs => agree s (mem s hs) u hu
    have first : t ∈ t :: seen := List.mem_cons_self
    obtain ⟨d, step⟩ := hj.exists_plain bound.canonical (canonical u hu)
      (bound.height_le level lowSeen) (low u hu)
      (bound.isCompound_eq_false first (full t ht) (plain t ht)) (bound.ne_null first (full t ht))
      (full u hu) meets
    refine ⟨d, step, ?_⟩
    exact hj.isJoinOf_append bound lowSeen (canonical u hu) (low u hu) (meets.mono False.elim) step

end Plain

section Records
variable {r b s d : Record} {rs seen : List Record}

theorem isMergeOf_append (hj : Joins j level) (bound : IsMergeOf seen b)
    (low : ∀ a ∈ seen, a.schema.height ≤ level) (canonical : s.schema.Canonical)
    (lows : s.schema.height ≤ level) (meets : b.Consistent True s)
    (step : b.merge j s = .ok d) : IsMergeOf (seen ++ [s]) d := by
  have lowb := bound.isJoinOf.height_le level (by simpa using low)
  apply bound.append (.single canonical)
  exact hj.isMergeOf bound.isJoinOf.canonical canonical lowb lows meets step

theorem isMergeOf_foldlM (hj : Joins j level) (canonical : ∀ a ∈ r :: rs, a.schema.Canonical)
    (low : ∀ a ∈ r :: rs, a.schema.height ≤ level)
    (agree : ∀ a ∈ r :: rs, ∀ b ∈ r :: rs, a.Consistent True b)
    (merged : rs.foldlM (Record.merge j) r = .ok d) : IsMergeOf (r :: rs) d := by
  refine foldlM_invariant (fun seen c => IsMergeOf (r :: seen) c) merged
    (.single (canonical r List.mem_cons_self)) ?_
  intro seen s later b d whole bound step
  obtain ⟨hs, mem⟩ := mem_of_halfway (x := r) whole
  apply hj.isMergeOf_append bound (fun a ha => low a (mem a ha)) (canonical s hs) (low s hs) _ step
  exact bound.consistent True s (canonical s hs) fun a ha => agree a (mem a ha) s hs

theorem exists_foldlM_merge (hj : Joins j level) (canonical : ∀ a ∈ r :: rs, a.schema.Canonical)
    (low : ∀ a ∈ r :: rs, a.schema.height ≤ level)
    (agree : ∀ a ∈ r :: rs, ∀ b ∈ r :: rs, a.Consistent False b) :
    ∃ d, rs.foldlM (Record.merge j) r = .ok d := by
  refine (exists_foldlM (fun seen c => IsMergeOf (r :: seen) c)
    (.single (canonical r List.mem_cons_self)) ?_).imp fun _ h => h.1
  intro seen s later b whole bound
  obtain ⟨hs, mem⟩ := mem_of_halfway (x := r) whole
  have lowSeen : ∀ a ∈ r :: seen, a.schema.height ≤ level := fun a ha => low a (mem a ha)
  have meets : b.Consistent False s :=
    bound.consistent False s (canonical s hs) fun a ha => agree a (mem a ha) s hs
  obtain ⟨d, step⟩ := hj.exists_merge bound.isJoinOf.canonical (canonical s hs)
    (bound.isJoinOf.height_le level (by simpa using lowSeen)) (low s hs) meets
  refine ⟨d, step, ?_⟩
  exact hj.isMergeOf_append bound lowSeen (canonical s hs) (low s hs) (meets.mono False.elim) step

end Records

section All
variable {lax : Prop}

/-- Types that agree and are no unions are either plain or records that all overlap. -/
theorem candidates_cases (flat : ∀ t ∈ ts, t.isUnion = false)
    (agree : ∀ s ∈ ts, ∀ t ∈ ts, Agree lax s t) :
    (∀ t ∈ Strict.candidates ts, t.isCompound = false) ∨
      ∃ r rs, Strict.candidates ts = (r :: rs).map Record.schema ∧
        (∀ a ∈ r :: rs, ∀ b ∈ r :: rs, a.Consistent lax b) ∧ ∀ j,
        Strict.joinAllWith j ts = (rs.foldlM (Record.merge j) r).map Record.schema := by
  cases compound : (Strict.candidates ts).any isCompound with
  | false => exact .inl (by simpa using compound)
  | true =>
    obtain ⟨r, rs, h⟩ := exists_records_of_agree
      (fun t ht => flat t (Strict.mem_candidates.1 ht).1)
      (fun t ht => (Strict.mem_candidates.1 ht).2)
      (fun s hs t ht => agree s (Strict.mem_candidates.1 hs).1 t (Strict.mem_candidates.1 ht).1)
      compound
    have mem : ∀ a ∈ r :: rs, a.schema ∈ ts := fun a ha =>
      (Strict.mem_candidates.1 (h ▸ List.mem_map_of_mem ha)).1
    have meets : ∀ a ∈ r :: rs, ∀ b ∈ r :: rs, a.Consistent lax b ∧ a.overlaps b = true :=
      fun a ha b hb => Record.agree_schema.1 (agree _ (mem a ha) _ (mem b hb))
    refine .inr ⟨r, rs, h, fun a ha b hb => (meets a ha b hb).1, fun j => ?_⟩
    rw [Strict.joinAllWith_of_records h]
    exact Strict.joinRecords_of_overlapping fun a ha b hb => (meets a ha b hb).2

/-- A collection of types that agree and are no unions joins to its least upper bound. -/
theorem isJoinOf_joinAllWith (hj : Joins j level) (canonical : ∀ t ∈ ts, t.Canonical)
    (low : ∀ t ∈ ts, t.height ≤ level) (flat : ∀ t ∈ ts, t.isUnion = false)
    (agree : ∀ s ∈ ts, ∀ t ∈ ts, Agree True s t)
    (joined : Strict.joinAllWith j ts = .ok c) : IsJoinOf ts c := by
  refine IsJoinOf.of_candidates ?_
  have mem {t : Schema} (ht : t ∈ Strict.candidates ts) : t ∈ ts := (Strict.mem_candidates.1 ht).1
  rcases candidates_cases flat agree with plain | ⟨r, rs, h, consistent, whole⟩
  · rw [Strict.joinAllWith_of_plain plain] at joined
    exact hj.isJoinOf_joinList (fun t ht => canonical t (mem ht)) (fun t ht => low t (mem ht))
      (fun s hs t ht => agree s (mem hs) t (mem ht)) joined
  · rw [whole j] at joined
    have mem : ∀ a ∈ r :: rs, a.schema ∈ ts := fun a ha => mem (h ▸ List.mem_map_of_mem ha)
    cases merged : rs.foldlM (Record.merge j) r with
    | error reason => rw [merged] at joined; cases joined
    | ok d =>
      rw [merged] at joined
      cases joined
      rw [h]
      exact (hj.isMergeOf_foldlM (fun a ha => canonical _ (mem a ha))
        (fun a ha => low _ (mem a ha)) consistent merged).isJoinOf

theorem exists_joinAllWith (hj : Joins j level) (canonical : ∀ t ∈ ts, t.Canonical)
    (low : ∀ t ∈ ts, t.height ≤ level) (flat : ∀ t ∈ ts, t.isUnion = false)
    (agree : ∀ s ∈ ts, ∀ t ∈ ts, Mergeable s t) :
    ∃ c, Strict.joinAllWith j ts = .ok c := by
  have mem {t : Schema} (ht : t ∈ Strict.candidates ts) : t ∈ ts := (Strict.mem_candidates.1 ht).1
  rcases candidates_cases flat agree with plain | ⟨r, rs, h, consistent, whole⟩
  · rw [Strict.joinAllWith_of_plain plain]
    exact hj.exists_joinList (fun t ht => canonical t (mem ht)) (fun t ht => low t (mem ht))
      plain (fun t ht => (Strict.mem_candidates.1 ht).2)
      fun s hs t ht => agree s (mem hs) t (mem ht)
  · have mem : ∀ a ∈ r :: rs, a.schema ∈ ts := fun a ha => mem (h ▸ List.mem_map_of_mem ha)
    obtain ⟨d, merged⟩ := hj.exists_foldlM_merge (fun a ha => canonical _ (mem a ha))
      (fun a ha => low _ (mem a ha)) consistent
    exact ⟨d.schema, by rw [whole j, merged]; rfl⟩

end All

theorem isUnion_eq_false_of_agree {lax : Prop} {a b : Schema} (h : Agree lax a b) (ne : a ≠ b)
    (ha : a ≠ null) (hb : b ≠ null) : a.isUnion = false ∧ b.isUnion = false := by
  cases a with
  | union ss => simp_all [Agree]
  | _ => cases b <;> simp_all [Agree, isUnion]

theorem agree_pair {lax : Prop} {a b : Schema} (ha : a.Canonical) (hb : b.Canonical)
    (h : Agree lax a b) : ∀ s ∈ [a, b], ∀ t ∈ [a, b], Agree lax s t := by
  simp only [forall_mem_pair]
  exact ⟨⟨agree_refl ha, h⟩, h.symm ha hb, agree_refl hb⟩

/-- A join for lower types gives a join by one step of the strict join. -/
theorem joinWith (hj : Joins j level) : Joins (Strict.joinWith j) (level + 1) where
  isJoinOf {a b c} ha hb la lb h joined := by
    cases Strict.joined_of_joinWith joined with
    | same => exact (IsJoinOf.single ha).congr (by simp)
    | nullLeft => exact (IsJoinOf.single hb).of_forall_mem (by simp) (by simp)
    | nullRight => exact (IsJoinOf.single ha).of_forall_mem (by simp) (by simp)
    | collection ne fulla fullb joined =>
      obtain ⟨flata, flatb⟩ := isUnion_eq_false_of_agree h ne fulla fullb
      refine hj.isJoinOf_joinAllWith (forall_mem_pair.2 ⟨ha, hb⟩) ?_
        (forall_mem_pair.2 ⟨flata, flatb⟩) (agree_pair ha hb h) joined
      exact forall_mem_pair.2 ⟨Nat.le_of_lt_succ la, Nat.le_of_lt_succ lb⟩
    | plain joined =>
      exact hj.isJoinOf_plain ha hb (Nat.le_of_lt_succ la) (Nat.le_of_lt_succ lb) h joined
  exists_ok {a b} ha hb la lb h := by
    simp only [Strict.joinWith]
    split
    · exact ⟨a, rfl⟩
    split
    · exact ⟨b, rfl⟩
    split
    · exact ⟨a, rfl⟩
    split
    · obtain ⟨flata, flatb⟩ := isUnion_eq_false_of_agree h ‹_› ‹_› ‹_›
      refine hj.exists_joinAllWith (forall_mem_pair.2 ⟨ha, hb⟩) ?_
        (forall_mem_pair.2 ⟨flata, flatb⟩) (agree_pair ha hb h)
      exact forall_mem_pair.2 ⟨Nat.le_of_lt_succ la, Nat.le_of_lt_succ lb⟩
    · next plain =>
      refine hj.exists_plain ha hb (Nat.le_of_lt_succ la) (Nat.le_of_lt_succ lb) ?_ ‹_› ‹_› h
      simp_all

end Joins

namespace Strict

theorem joins_joinWithin (level : Nat) : Joins (joinWithin level) level := by
  induction level with
  | zero => exact ⟨fun _ _ la => absurd la (Nat.not_lt_zero _),
      fun _ _ la => absurd la (Nat.not_lt_zero _)⟩
  | succ level ih => exact ih.joinWith

theorem joins_join (level : Nat) : Joins join level where
  isJoinOf {a b _} ha hb _ _ h joined :=
    (joins_joinWithin (max a.height b.height + 1)).isJoinOf ha hb (by omega) (by omega) h joined
  exists_ok {a b} ha hb _ _ h :=
    (joins_joinWithin (max a.height b.height + 1)).exists_ok ha hb (by omega) (by omega) h

end Strict

end SchemaInference
