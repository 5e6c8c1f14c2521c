import SchemaInference.Proofs.Widths

/-!
# Widening position by position

Of two schemas that differ in the width of numbers only, `widen` takes the wider kind at
each place and changes nothing else.  The result is the widest schema of the two, and the
widest of several schemas is found by widening one by one.
-/

namespace SchemaInference

theorem Kind.widest_self (k : Kind) : k.widest k = k := by
  unfold widest
  split <;> rfl

theorem Kind.widest_spec {k l : Kind} (same : k.withoutWidth = l.withoutWidth) :
    (k.widest l = k ∨ k.widest l = l) ∧ k.fits (k.widest l) = true ∧ l.fits (k.widest l) = true ∧
      (k.widest l).withoutWidth = k.withoutWidth := by
  revert same
  cases k <;> cases l <;> decide

namespace Schema

mutual

/-- The first schema with the wider kind at every place where the second has a kind too. -/
def widen : Schema → Schema → Schema
  | .primitive k, b => match b with
    | .primitive l => .primitive (k.widest l)
    | _ => .primitive k
  | .array n s, b => match b with
    | .array _ t => .array n (widen s t)
    | _ => .array n s
  | .record n fs, b => match b with
    | .record _ gs => .record n (widenFields fs gs)
    | _ => .record n fs
  | .union ss, b => match b with
    | .union ts => .union (widenBranches ss ts)
    | _ => .union ss

def widenFields : List (Text × Schema) → List (Text × Schema) → List (Text × Schema)
  | [], _ => []
  | (f, s) :: fs, gs => match gs with
    | [] => []
    | (_, t) :: gs => (f, widen s t) :: widenFields fs gs

def widenBranches : List Schema → List Schema → List Schema
  | [], _ => []
  | s :: ss, ts => match ts with
    | [] => []
    | t :: ts => widen s t :: widenBranches ss ts

end

section Lists
variable {fs gs : List (Text × Schema)} {ss ts : List Schema}

theorem widenBranches_eq_map : widenBranches ss ts = (ss.zip ts).map fun p => widen p.1 p.2 := by
  induction ss generalizing ts with
  | nil => rfl
  | cons s ss ih =>
    cases ts with
    | nil => rfl
    | cons t ts => rw [widenBranches, ih, List.zip_cons_cons, List.map_cons]

theorem fieldsWithoutWidth_cons_eq {e : Text × Schema}
    (same : fieldsWithoutWidth (e :: fs) = fieldsWithoutWidth gs) :
    ∃ t rest, gs = (e.1, t) :: rest ∧ e.2.withoutWidth = t.withoutWidth ∧
      fieldsWithoutWidth fs = fieldsWithoutWidth rest := by
  obtain ⟨g, s⟩ := e
  rcases gs with _ | ⟨⟨h, t⟩, rest⟩
  · cases same
  · simp only [fieldsWithoutWidth, List.cons.injEq, Prod.mk.injEq] at same
    obtain ⟨⟨rfl, kinds⟩, later⟩ := same
    exact ⟨t, rest, rfl, kinds, later⟩

theorem lookup_widenFields (same : fieldsWithoutWidth fs = fieldsWithoutWidth gs) (f : Text) :
    (widenFields fs gs).lookup f =
      (fs.lookup f).bind fun s => (gs.lookup f).map fun t => widen s t := by
  induction fs generalizing gs with
  | nil => rfl
  | cons e fs ih =>
    obtain ⟨t, rest, rfl, _, later⟩ := fieldsWithoutWidth_cons_eq same
    obtain ⟨g, s⟩ := e
    simp only [widenFields, lookup_cons_ite]
    split
    · rfl
    · exact ih later

theorem eq_of_mem_zip (same : branchesWithoutWidth ss = branchesWithoutWidth ts) {s t : Schema}
    (h : (s, t) ∈ ss.zip ts) : s.withoutWidth = t.withoutWidth := by
  rw [branchesWithoutWidth_eq_map, branchesWithoutWidth_eq_map] at same
  obtain ⟨i, hi⟩ := List.mem_iff_getElem?.1 h
  obtain ⟨hs, ht⟩ := List.getElem?_zip_eq_some.1 hi
  have kinds := congrArg (fun us : List Schema => us[i]?) same
  simpa [hs, ht] using kinds

theorem widenFields_self (parts : ∀ g t, (g, t) ∈ fs → widen t t = t) : widenFields fs fs = fs := by
  induction fs with
  | nil => rfl
  | cons e rest ih =>
    obtain ⟨g, t⟩ := e
    rw [widenFields, parts g t List.mem_cons_self,
      ih fun g t hmem => parts g t (List.mem_cons_of_mem _ hmem)]

theorem widenBranches_self (parts : ∀ b ∈ ss, widen b b = b) : widenBranches ss ss = ss := by
  induction ss with
  | nil => rfl
  | cons b rest ih =>
    obtain ⟨first, others⟩ := List.forall_mem_cons.1 parts
    rw [widenBranches, first, ih others]

theorem fieldsWithoutWidth_widenFields
    (parts : ∀ g s, (g, s) ∈ fs → ∀ t, s.withoutWidth = t.withoutWidth →
      (widen s t).withoutWidth = s.withoutWidth)
    (same : fieldsWithoutWidth fs = fieldsWithoutWidth gs) :
    fieldsWithoutWidth (widenFields fs gs) = fieldsWithoutWidth fs := by
  induction fs generalizing gs with
  | nil => rfl
  | cons e fs ih =>
    obtain ⟨t, rest, rfl, kinds, later⟩ := fieldsWithoutWidth_cons_eq same
    obtain ⟨g, s⟩ := e
    rw [widenFields, fieldsWithoutWidth, fieldsWithoutWidth, parts g s List.mem_cons_self t kinds,
      ih (fun g s hmem => parts g s (List.mem_cons_of_mem _ hmem)) later]

theorem branchesWithoutWidth_widenBranches
    (parts : ∀ s ∈ ss, ∀ t, s.withoutWidth = t.withoutWidth →
      (widen s t).withoutWidth = s.withoutWidth)
    (same : branchesWithoutWidth ss = branchesWithoutWidth ts) :
    branchesWithoutWidth (widenBranches ss ts) = branchesWithoutWidth ss := by
  induction ss generalizing ts with
  | nil => rfl
  | cons s ss ih =>
    obtain ⟨first, others⟩ := List.forall_mem_cons.1 parts
    cases ts with
    | nil => cases same
    | cons t ts =>
      simp only [branchesWithoutWidth, List.cons.injEq] at same
      rw [widenBranches, branchesWithoutWidth, branchesWithoutWidth, first t same.1,
        ih others same.2]

end Lists

section Widen
variable {s t u : Schema}

theorem widen_self (t : Schema) : widen t t = t := by
  induction t using induction_parts with
  | primitive k => rw [widen, Kind.widest_self]
  | array n items ih => rw [widen, ih]
  | record n fields ih => rw [widen, widenFields_self ih]
  | union branches ih => rw [widen, widenBranches_self ih]

theorem withoutWidth_widen (same : s.withoutWidth = t.withoutWidth) :
    (widen s t).withoutWidth = s.withoutWidth := by
  induction s using induction_parts generalizing t with
  | primitive k =>
    cases sameForm same with
    | primitives kinds => rw [widen, withoutWidth, (Kind.widest_spec kinds).2.2.2, withoutWidth]
  | array n s ih =>
    cases sameForm same with
    | arrays _ items => rw [widen, withoutWidth, ih items, withoutWidth]
  | record n fs ih =>
    cases sameForm same with
    | records _ fields =>
      rw [widen, withoutWidth, withoutWidth,
        fieldsWithoutWidth_widenFields (fun f s hmem t kinds => ih f s hmem kinds) fields]
  | union ss ih =>
    cases sameForm same with
    | unions branches =>
      rw [widen, withoutWidth, withoutWidth,
        branchesWithoutWidth_widenBranches (fun s hs t kinds => ih s hs kinds) branches]

/-- What a widened schema has for a part is the widened part of the two schemas. -/
theorem part?_widen (same : s.withoutWidth = t.withoutWidth) {step : Step}
    (h : (widen s t).part? step = some u) :
    ∃ a b, s.part? step = some a ∧ t.part? step = some b ∧ u = widen a b := by
  cases sameForm same with
  | primitives => cases step <;> cases h
  | @arrays _ a b =>
    cases step with
    | items =>
      cases h
      exact ⟨a, b, rfl, rfl, rfl⟩
    | _ => cases h
  | records _ fields =>
    cases step with
    | field f =>
      have found := (lookup_widenFields fields f).symm.trans h
      obtain ⟨a, ha, found⟩ := Option.bind_eq_some_iff.1 found
      obtain ⟨b, hb, rfl⟩ := Option.map_eq_some_iff.1 found
      exact ⟨a, b, ha, hb, rfl⟩
    | _ => cases h
  | @unions ss ts =>
    cases step with
    | branch i =>
      rw [widen, widenBranches_eq_map] at h
      change ((ss.zip ts).map fun p => widen p.1 p.2)[i]? = some u at h
      rw [List.getElem?_map] at h
      obtain ⟨⟨a, b⟩, found, rfl⟩ := Option.map_eq_some_iff.1 h
      obtain ⟨ha, hb⟩ := List.getElem?_zip_eq_some.1 found
      exact ⟨a, b, ha, hb, rfl⟩
    | _ => cases h

theorem withoutWidth_part? (same : s.withoutWidth = t.withoutWidth) (step : Step) {a b : Schema}
    (ha : s.part? step = some a) (hb : t.part? step = some b) :
    a.withoutWidth = b.withoutWidth := by
  have parts := part?_withoutWidth s step
  rw [same, part?_withoutWidth, ha, hb] at parts
  exact (Option.some.inj parts).symm

theorem kindAt?_widen (same : s.withoutWidth = t.withoutWidth) {path : List Step} {k : Kind}
    (h : kindAt? path (widen s t) = some k) :
    ∃ l m, kindAt? path s = some l ∧ kindAt? path t = some m ∧ k = l.widest m ∧
      l.withoutWidth = m.withoutWidth := by
  induction path generalizing s t with
  | nil =>
    cases sameForm same with
    | @primitives l m kinds =>
      cases h
      exact ⟨l, m, rfl, rfl, rfl, kinds⟩
    | _ => cases h
  | cons step path ih =>
    obtain ⟨u, part, found⟩ := Option.bind_eq_some_iff.1 h
    obtain ⟨a, b, ha, hb, rfl⟩ := part?_widen same part
    obtain ⟨l, m, hl, hm, wider⟩ := ih (withoutWidth_part? same step ha hb) found
    refine ⟨l, m, ?_, ?_, wider⟩
    · rw [kindAt?, ha]
      exact hl
    · rw [kindAt?, hb]
      exact hm

theorem canonical_withoutWidth (t : Schema) : t.withoutWidth.Canonical ↔ t.Canonical := by
  induction t using induction_parts with
  | primitive k => exact iff_of_true (canonical_primitive _) (canonical_primitive k)
  | array n items ih => rw [withoutWidth, canonical_array, canonical_array, ih]
  | record n fields ih =>
    have order : Ascending (fieldsWithoutWidth fields) ↔ Ascending fields := by
      rw [fieldsWithoutWidth_eq_map, Ascending, List.pairwise_map]
      exact Iff.rfl
    unfold Canonical at ih ⊢
    rw [withoutWidth, everywhere_record, everywhere_record]
    apply and_congr order
    rw [fieldsWithoutWidth_eq_map]
    constructor
    · intro h f t hmem
      exact (ih f t hmem).1 (h f t.withoutWidth (List.mem_map_of_mem hmem))
    · intro h f u hmem
      obtain ⟨⟨g, t⟩, ht, heq⟩ := List.mem_map.1 hmem
      cases heq
      exact (ih g t ht).2 (h g t ht)
  | union branches ih =>
    unfold Canonical at ih ⊢
    rw [withoutWidth, everywhere_union, everywhere_union, branchesWithoutWidth_eq_map]
    apply and_congr Iff.rfl
    rw [List.forall_mem_map]
    exact forall₂_congr ih

theorem canonical_of_withoutWidth_eq (hs : s.Canonical) (same : s.withoutWidth = t.withoutWidth) :
    t.Canonical := by
  rw [← canonical_withoutWidth, ← same, canonical_withoutWidth]
  exact hs

end Widen

/-- Whether two schemas are of one shape and nowhere is the kind in the first the wider one. -/
structure Narrower (s t : Schema) : Prop where
  same : s.withoutWidth = t.withoutWidth
  fits : ∀ path k l, kindAt? path s = some k → kindAt? path t = some l → k.fits l = true

section Narrower
variable {s t a b c d : Schema} {ts us : List Schema}

theorem Narrower.part? (h : Narrower s t) (step : Step) (ha : s.part? step = some a)
    (hb : t.part? step = some b) : Narrower a b where
  same := withoutWidth_part? h.same step ha hb
  fits rest k l hk hl := by
    apply h.fits (step :: rest)
    · rw [kindAt?, ha]
      exact hk
    · rw [kindAt?, hb]
      exact hl

namespace IsWidest

theorem narrower (h : IsWidest ts c) (ht : t ∈ ts) (hct : t.Canonical) (hcc : c.Canonical) :
    Narrower t c where
  same := (sameUpToWidth_iff hct hcc).1 (h.shape t ht)
  fits path k l hk hl := h.wide path l hl t ht k hk

theorem single (ht : t.Canonical) : IsWidest [t] t where
  shape := by simpa using (sameUpToWidth_iff ht ht).2 rfl
  mem path k found := ⟨t, List.mem_cons_self, found⟩
  wide path k found := by
    intro s hs l hl
    cases List.mem_singleton.1 hs
    cases found.symm.trans hl
    exact Kind.fits_refl k

theorem congr (h : IsWidest ts c) (same : ∀ t, t ∈ ts ↔ t ∈ us) : IsWidest us c where
  shape t ht := h.shape t ((same t).2 ht)
  mem path k found := by
    obtain ⟨t, ht, kind⟩ := h.mem path k found
    exact ⟨t, (same t).1 ht, kind⟩
  wide path k found t ht := h.wide path k found t ((same t).2 ht)

/-- The widest of several schemas and one more is the widest of all of them. -/
theorem append (h : IsWidest ts c) (step : IsWidest [c, t] d) (canonical : ∀ t ∈ ts, t.Canonical)
    (hc : c.Canonical) (hd : d.Canonical) : IsWidest (ts ++ [t]) d := by
  have wider := step.narrower List.mem_cons_self hc hd
  constructor
  · refine List.forall_mem_append.2 ⟨fun s hs => ?_, fun s hs => ?_⟩
    · have narrower := h.narrower hs (canonical s hs) hc
      exact (sameUpToWidth_iff (canonical s hs) hd).2 (narrower.same.trans wider.same)
    · cases List.mem_singleton.1 hs
      exact step.shape _ (by simp)
  · intro path k found
    obtain ⟨s, hs, kind⟩ := step.mem path k found
    rcases List.mem_cons.1 hs with rfl | hs
    · obtain ⟨s, hs, kind⟩ := h.mem path k kind
      exact ⟨s, List.mem_append_left _ hs, kind⟩
    · exact ⟨s, List.mem_append_right _ hs, kind⟩
  · intro path k found
    refine List.forall_mem_append.2 ⟨fun s hs l hl => ?_, fun s hs l hl => ?_⟩
    · obtain ⟨m, hm, _⟩ := exists_kindAt? wider.same.symm found
      exact Kind.fits_trans (h.wide path m hm s hs l hl) (wider.fits path m k hm found)
    · cases List.mem_singleton.1 hs
      exact step.wide path k found _ (by simp) l hl

end IsWidest

/-- Widening two schemas of one shape gives the widest schema of the two. -/
theorem isWidest_widen (hs : s.Canonical) (ht : t.Canonical)
    (same : s.withoutWidth = t.withoutWidth) : IsWidest [s, t] (widen s t) := by
  have shape := withoutWidth_widen same
  have canonical : (widen s t).Canonical := canonical_of_withoutWidth_eq hs shape.symm
  constructor
  · refine forall_mem_pair.2 ⟨?_, ?_⟩
    · rw [sameUpToWidth_iff hs canonical, shape]
    · rw [sameUpToWidth_iff ht canonical, shape, same]
  · intro path k found
    obtain ⟨l, m, hl, hm, rfl, kinds⟩ := kindAt?_widen same found
    rcases (Kind.widest_spec kinds).1 with left | right
    · rw [left]
      exact ⟨s, List.mem_cons_self, hl⟩
    · rw [right]
      exact ⟨t, List.mem_cons_of_mem _ List.mem_cons_self, hm⟩
  · intro path k found
    obtain ⟨l, m, hl, hm, rfl, kinds⟩ := kindAt?_widen same found
    have wider := (Kind.widest_spec kinds).2
    refine forall_mem_pair.2 ⟨?_, ?_⟩
    · intro x hx
      cases hl.symm.trans hx
      exact wider.1
    · intro x hx
      cases hm.symm.trans hx
      exact wider.2.1

end Narrower

end Schema

end SchemaInference
