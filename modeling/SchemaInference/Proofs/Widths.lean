import SchemaInference.Proofs.Alike

/-!
# The width of numbers

Two schemas differ in the width of numbers only if they are equal once that width is
forgotten.  The kinds in a schema stand at places, which are paths into its parts, and a
schema is the widest of several if it has at each place the widest of their kinds.
-/

namespace SchemaInference

open Schema

/-- The kind for all numbers in place of a numeric kind. -/
def Kind.withoutWidth (k : Kind) : Kind := if k.isNumeric then .double else k

theorem Kind.sameUpToWidth_iff {k l : Kind} :
    k.sameUpToWidth l = true ↔ k.withoutWidth = l.withoutWidth := by
  cases k <;> cases l <;> decide

namespace Schema

mutual

/-- The schema with the kind for all numbers in place of the numeric kinds. -/
def withoutWidth : Schema → Schema
  | .primitive kind => .primitive kind.withoutWidth
  | .array name items => .array name items.withoutWidth
  | .record name fields => .record name (fieldsWithoutWidth fields)
  | .union branches => .union (branchesWithoutWidth branches)

def fieldsWithoutWidth : List (Text × Schema) → List (Text × Schema)
  | [] => []
  | (name, t) :: rest => (name, t.withoutWidth) :: fieldsWithoutWidth rest

def branchesWithoutWidth : List Schema → List Schema
  | [] => []
  | t :: rest => t.withoutWidth :: branchesWithoutWidth rest

end

section Erasure
variable {n m f : Text} {fs gs : List (Text × Schema)} {bs cs : List Schema}

theorem fieldsWithoutWidth_eq_map :
    fieldsWithoutWidth fs = fs.map fun e => (e.1, e.2.withoutWidth) := by
  induction fs with
  | nil => rfl
  | cons e rest ih => rw [fieldsWithoutWidth, ih, List.map_cons]

theorem branchesWithoutWidth_eq_map : branchesWithoutWidth bs = bs.map withoutWidth := by
  induction bs with
  | nil => rfl
  | cons b rest ih => rw [branchesWithoutWidth, ih, List.map_cons]

theorem lookup_fieldsWithoutWidth :
    (fieldsWithoutWidth fs).lookup f = (fs.lookup f).map withoutWidth := by
  induction fs with
  | nil => rfl
  | cons e rest ih =>
    rw [fieldsWithoutWidth, lookup_cons_ite, lookup_cons_ite, ih]
    split <;> rfl

theorem sameFieldsUpToWidth_iff
    (parts : ∀ g s, (g, s) ∈ fs → ∀ t, t.Canonical →
      (s.sameUpToWidth t = true ↔ s.withoutWidth = t.withoutWidth))
    (canonical : ∀ g t, (g, t) ∈ gs → t.Canonical) :
    (fs.map Prod.fst = gs.map Prod.fst ∧ sameFieldsUpToWidth fs gs = true) ↔
      fieldsWithoutWidth fs = fieldsWithoutWidth gs := by
  induction fs generalizing gs with
  | nil => cases gs <;> simp [fieldsWithoutWidth, sameFieldsUpToWidth]
  | cons e fs ih =>
    obtain ⟨g, s⟩ := e
    rcases gs with _ | ⟨⟨h, t⟩, gs⟩
    · simp [fieldsWithoutWidth]
    have rest := ih (fun g s hmem => parts g s (List.mem_cons_of_mem _ hmem))
      (fun g t hmem => canonical g t (List.mem_cons_of_mem _ hmem))
    have first := parts g s List.mem_cons_self t (canonical h t List.mem_cons_self)
    simp only [fieldsWithoutWidth, sameFieldsUpToWidth, List.map_cons, List.cons.injEq,
      Prod.mk.injEq, Bool.and_eq_true, first, ← rest]
    exact and_and_and_comm

theorem sameBranchesUpToWidth_iff
    (parts : ∀ b ∈ bs, ∀ t, t.Canonical →
      (b.sameUpToWidth t = true ↔ b.withoutWidth = t.withoutWidth))
    (canonical : ∀ t ∈ cs, t.Canonical) :
    sameBranchesUpToWidth bs cs = true ↔ branchesWithoutWidth bs = branchesWithoutWidth cs := by
  induction bs generalizing cs with
  | nil => cases cs <;> simp [branchesWithoutWidth, sameBranchesUpToWidth]
  | cons b bs ih =>
    cases cs with
    | nil => simp [branchesWithoutWidth, sameBranchesUpToWidth]
    | cons c cs =>
      obtain ⟨first, others⟩ := List.forall_mem_cons.1 parts
      obtain ⟨hc, hcs⟩ := List.forall_mem_cons.1 canonical
      simp only [branchesWithoutWidth, sameBranchesUpToWidth, List.cons.injEq, Bool.and_eq_true,
        first c hc, ih others hcs]

end Erasure

/-- What two schemas are that are equal without the width of numbers. -/
inductive SameForm : Schema → Schema → Prop where
  | primitives {k l : Kind} (kinds : k.withoutWidth = l.withoutWidth) :
    SameForm (.primitive k) (.primitive l)
  | arrays (n : Option Text) {s t : Schema} (items : s.withoutWidth = t.withoutWidth) :
    SameForm (.array n s) (.array n t)
  | records (n : Text) {fs gs : List (Text × Schema)}
    (fields : fieldsWithoutWidth fs = fieldsWithoutWidth gs) :
    SameForm (.record n fs) (.record n gs)
  | unions {ss ts : List Schema} (branches : branchesWithoutWidth ss = branchesWithoutWidth ts) :
    SameForm (.union ss) (.union ts)

section Form
variable {s t : Schema}

theorem sameForm (same : s.withoutWidth = t.withoutWidth) : SameForm s t := by
  cases s <;> cases t <;>
    simp only [withoutWidth, primitive.injEq, array.injEq, record.injEq, union.injEq,
      reduceCtorEq] at same
  case primitive.primitive => exact .primitives same
  case array.array n s m t =>
    obtain ⟨rfl, items⟩ := same
    exact .arrays n items
  case record.record n fs m gs =>
    obtain ⟨rfl, fields⟩ := same
    exact .records n fields
  case union.union => exact .unions same

theorem eq_null_of_withoutWidth_eq (same : null.withoutWidth = t.withoutWidth) : t = null := by
  cases sameForm same with
  | @primitives _ l kinds =>
    revert kinds
    cases l <;> decide

theorem withoutWidth_of_lookup {fs gs : List (Text × Schema)} {f : Text}
    (fields : fieldsWithoutWidth fs = fieldsWithoutWidth gs) (hs : fs.lookup f = some s)
    (ht : gs.lookup f = some t) : s.withoutWidth = t.withoutWidth := by
  have column := congrArg (List.lookup f) fields
  rw [lookup_fieldsWithoutWidth, lookup_fieldsWithoutWidth, hs, ht] at column
  exact Option.some.inj column

end Form

/-- Canonical schemas differ in width only if they are equal without it. -/
theorem sameUpToWidth_iff {s t : Schema} (hs : s.Canonical) (ht : t.Canonical) :
    s.sameUpToWidth t = true ↔ s.withoutWidth = t.withoutWidth := by
  induction s using induction_parts generalizing t with
  | primitive k =>
    cases t with
    | primitive l => simp [sameUpToWidth, withoutWidth, Kind.sameUpToWidth_iff]
    | _ => simp [sameUpToWidth, withoutWidth]
  | array n s ih =>
    cases t with
    | array m t =>
      have items := ih (canonical_array.1 hs) (canonical_array.1 ht)
      simp [sameUpToWidth, withoutWidth, items]
    | _ => simp [sameUpToWidth, withoutWidth]
  | record n fs ih =>
    cases t with
    | record m gs =>
      obtain ⟨ascf, partsf⟩ := everywhere_record.1 hs
      obtain ⟨ascg, partsg⟩ := everywhere_record.1 ht
      have fields := sameFieldsUpToWidth_iff
        (fun g s hmem t ht => ih g s hmem (partsf g s hmem) ht) partsg
      simp only [sameUpToWidth, withoutWidth, fieldNames_eq_of_ascending ascf,
        fieldNames_eq_of_ascending ascg, Bool.and_eq_true, decide_eq_true_eq, record.injEq,
        ← fields, and_assoc]
    | _ => simp [sameUpToWidth, withoutWidth]
  | union bs ih =>
    cases t with
    | union cs =>
      obtain ⟨_, partsb⟩ := everywhere_union.1 hs
      obtain ⟨_, partsc⟩ := everywhere_union.1 ht
      have branches := sameBranchesUpToWidth_iff
        (fun b hb t ht => ih b hb (partsb b hb) ht) partsc
      simp [sameUpToWidth, withoutWidth, branches]
    | _ => simp [sameUpToWidth, withoutWidth]

/--
Whether canonical schemas differ at most in width is whether they are equal without it, so that
it is an equivalence.
-/
theorem sameUpToWidth_equivalence :
    (∀ s t : Schema, s.Canonical → t.Canonical →
      (s.sameUpToWidth t = true ↔ s.withoutWidth = t.withoutWidth)) ∧
    Equivalence fun s t : { s : Schema // s.Canonical } => s.1.sameUpToWidth t.1 = true := by
  refine ⟨fun s t hs ht => sameUpToWidth_iff hs ht, ?_, ?_, ?_⟩
  · intro s
    exact (sameUpToWidth_iff s.2 s.2).2 rfl
  · intro s t same
    exact (sameUpToWidth_iff t.2 s.2).2 ((sameUpToWidth_iff s.2 t.2).1 same).symm
  · intro s t u same same'
    have left := (sameUpToWidth_iff s.2 t.2).1 same
    have right := (sameUpToWidth_iff t.2 u.2).1 same'
    exact (sameUpToWidth_iff s.2 u.2).2 (left.trans right)

/-- Records that differ in the width of an item and of a branch, and one with another field. -/
theorem sameUpToWidth_equivalence_of_records :
    let record (field : Text) (item branch : Kind) : Schema :=
      .record "r" [("a", .array none (.primitive item)),
        (field, .union [.primitive branch, .primitive .string])]
    let s := record "b" .int .double
    let t := record "b" .long .int
    let u := record "c" .int .double
    s.Canonical ∧ t.Canonical ∧ u.Canonical ∧ s.withoutWidth = t.withoutWidth ∧
      t.sameUpToWidth s = true ∧ ¬s.sameUpToWidth u = true := by
  intro record s t u
  obtain ⟨same_iff, equivalence⟩ := sameUpToWidth_equivalence
  have hs : s.Canonical := by decide
  have ht : t.Canonical := by decide
  have hu : u.Canonical := by decide
  have same : s.sameUpToWidth t = true := by decide
  refine ⟨hs, ht, hu, (same_iff s t hs ht).1 same, ?_, fun other => ?_⟩
  · exact equivalence.symm (x := ⟨s, hs⟩) (y := ⟨t, ht⟩) same
  · exact absurd ((same_iff s u hs hu).1 other) (by decide)

/-- A step from a schema to one of its parts. -/
inductive Step where
  | items
  | field (name : Text)
  | branch (index : Nat)

def part? : Schema → Step → Option Schema
  | .array _ items, .items => some items
  | .record _ fields, .field name => fields.lookup name
  | .union branches, .branch index => branches[index]?
  | _, _ => none

/-- The kind that stands at a place in a schema. -/
def kindAt? : List Step → Schema → Option Kind
  | [], t => t.kind?
  | step :: path, t => (t.part? step).bind (kindAt? path)

section Places
variable {s t : Schema}

theorem part?_withoutWidth (t : Schema) (step : Step) :
    t.withoutWidth.part? step = (t.part? step).map withoutWidth := by
  cases t with
  | primitive k => cases step <;> rfl
  | array n items => cases step <;> rfl
  | record n fields =>
    cases step with
    | field f => exact lookup_fieldsWithoutWidth
    | _ => rfl
  | union branches =>
    cases step with
    | branch i =>
      simp only [withoutWidth, part?, branchesWithoutWidth_eq_map, List.getElem?_map]
    | _ => rfl

theorem kindAt?_withoutWidth (path : List Step) (t : Schema) :
    kindAt? path t.withoutWidth = (kindAt? path t).map Kind.withoutWidth := by
  induction path generalizing t with
  | nil => cases t <;> rfl
  | cons step path ih =>
    rw [kindAt?, kindAt?, part?_withoutWidth]
    cases t.part? step with
    | none => rfl
    | some part => exact ih part

theorem exists_kindAt? (same : s.withoutWidth = t.withoutWidth) {path : List Step} {k : Kind}
    (h : kindAt? path s = some k) :
    ∃ l, kindAt? path t = some l ∧ l.withoutWidth = k.withoutWidth := by
  have kinds := kindAt?_withoutWidth path t
  rw [← same, kindAt?_withoutWidth, h] at kinds
  cases found : kindAt? path t with
  | none => rw [found] at kinds; cases kinds
  | some l =>
    rw [found] at kinds
    exact ⟨l, rfl, (Option.some.inj kinds).symm⟩

theorem kindAt?_of_part? (kinds : ∀ path, kindAt? path s = kindAt? path t) (step : Step)
    {u v : Schema} (hu : s.part? step = some u) (hv : t.part? step = some v) (path : List Step) :
    kindAt? path u = kindAt? path v := by
  have := kinds (step :: path)
  rwa [kindAt?, kindAt?, hu, hv] at this

theorem eq_of_option_map_eq {α β : Type} (f : α → β) {a b : Option α} (h : a.map f = b.map f)
    (inj : ∀ x y, a = some x → b = some y → f x = f y → x = y) : a = b := by
  cases a with
  | none => exact (Option.map_eq_none_iff.1 h.symm).symm
  | some x =>
    obtain ⟨y, rfl, same⟩ := Option.map_eq_some_iff.1 h.symm
    rw [inj x y rfl rfl same.symm]

/-- Schemas that differ in width only are equal if they have the same kinds. -/
theorem eq_of_kindAt? (hs : s.Canonical) (ht : t.Canonical)
    (same : s.withoutWidth = t.withoutWidth)
    (kinds : ∀ path, kindAt? path s = kindAt? path t) : s = t := by
  induction s using induction_parts generalizing t with
  | primitive k =>
    cases sameForm same with
    | primitives => simpa [kindAt?, kind?] using kinds []
  | array n s ih =>
    cases sameForm same with
    | arrays _ items =>
      rw [ih (canonical_array.1 hs) (canonical_array.1 ht) items
        (kindAt?_of_part? kinds .items rfl rfl)]
  | record n fs ih =>
    cases sameForm same with
    | records _ fields =>
      obtain ⟨ascf, partsf⟩ := canonical_record.1 hs
      obtain ⟨ascg, partsg⟩ := canonical_record.1 ht
      refine congrArg (record n) (ascf.ext ascg fun f => ?_)
      refine eq_of_option_map_eq withoutWidth ?_ fun u v hu hv same => ?_
      · rw [← lookup_fieldsWithoutWidth, fields, lookup_fieldsWithoutWidth]
      · exact ih f u (mem_of_lookup hu) (partsf f u hu) (partsg f v hv) same
          (kindAt?_of_part? kinds (.field f) hu hv)
  | union bs ih =>
    cases sameForm same with
    | unions branches =>
      rw [branchesWithoutWidth_eq_map, branchesWithoutWidth_eq_map] at branches
      refine congrArg union (List.ext_getElem? fun i => ?_)
      refine eq_of_option_map_eq withoutWidth ?_ fun u v hu hv same => ?_
      · rw [← List.getElem?_map, branches, List.getElem?_map]
      · have hu' := List.mem_of_getElem? hu
        exact ih u hu' (hs.branch hu') (ht.branch (List.mem_of_getElem? hv)) same
          (kindAt?_of_part? kinds (.branch i) hu hv)

end Places

/-- `c` is of the shape of the schemas `ts` and has the widest of their kinds at each place. -/
structure IsWidest (ts : List Schema) (c : Schema) : Prop where
  shape : ∀ t ∈ ts, t.sameUpToWidth c = true
  mem : ∀ path k, kindAt? path c = some k → ∃ t ∈ ts, kindAt? path t = some k
  wide : ∀ path k, kindAt? path c = some k → ∀ t ∈ ts, ∀ l, kindAt? path t = some l →
    l.fits k = true

namespace IsWidest
variable {ts : List Schema} {c d : Schema}

theorem unique (canonical : ∀ t ∈ ts, t.Canonical) (full : ts ≠ []) (hc : c.Canonical)
    (hd : d.Canonical) (wc : IsWidest ts c) (wd : IsWidest ts d) : c = d := by
  obtain ⟨t, ht⟩ := List.exists_mem_of_ne_nil ts full
  have sc := (sameUpToWidth_iff (canonical t ht) hc).1 (wc.shape t ht)
  have sd := (sameUpToWidth_iff (canonical t ht) hd).1 (wd.shape t ht)
  have same : c.withoutWidth = d.withoutWidth := sc.symm.trans sd
  have fits {c d : Schema} (wc : IsWidest ts c) (wd : IsWidest ts d) {path : List Step}
      {k l : Kind} (hk : kindAt? path c = some k) (hl : kindAt? path d = some l) :
      k.fits l = true := by
    obtain ⟨t, ht, found⟩ := wc.mem path k hk
    exact wd.wide path l hl t ht k found
  -- a place has a kind in both or in neither, and each of the kinds fits the other
  refine eq_of_kindAt? hc hd same fun path => ?_
  cases hk : kindAt? path c with
  | some k =>
    obtain ⟨l, hl, _⟩ := exists_kindAt? same hk
    rw [hl, Kind.fits_antisymm (fits wc wd hk hl) (fits wd wc hl hk)]
  | none =>
    cases hl : kindAt? path d with
    | none => rfl
    | some l =>
      obtain ⟨k, hk', _⟩ := exists_kindAt? same.symm hl
      rw [hk] at hk'
      cases hk'

end IsWidest

end Schema

end SchemaInference
