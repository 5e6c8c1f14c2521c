import Mathlib.Logic.Function.Iterate
import SchemaInference.Proofs.Heights
import SchemaInference.Proofs.Resolution

/-!
# Joining ends and lets no type grow

Joins call for joins of lower types only, and so do majorities.  Calls therefore are not
nested deeper than the types are high: however a call below that depth is answered, the
outcome is the same.  As nothing grows, no schema is higher than the depth that is left
for its value.
-/

namespace SchemaInference

open Schema

section Majority
variable {h : Nat} {ts : List Schema}

theorem height_majority_le (ts : List Schema) : (majority ts).height ≤ branchesHeight ts := by
  induction ts using majority.induct with
  | case1 ts none =>
    rw [majority_eq_null none]
    simp [Schema.height]
  | case2 ts k rest members numeric =>
    rw [majority_eq_primitive members, if_pos numeric]
    simp [Schema.height]
  | case3 ts k rest members other =>
    rw [majority_eq_primitive members, if_neg other]
    simp [Schema.height]
  | case4 ts n items rest members ih =>
    rw [majority_eq_array members]
    have lower : branchesHeight ((.array n items :: rest).filterMap items?) < branchesHeight ts :=
      branchesHeight_items_lt (fun t ht => mem_of_mem_familyMajority (members ▸ ht))
        List.mem_cons_self
    simp only [Schema.height]
    omega
  | case5 ts n fields rest members none =>
    rw [majority_eq_null_of_record members none]
    simp [Schema.height]
  | case6 ts n fields rest members r others group ih =>
    rw [majority_eq_record members group]
    have mem (q : Record) (hq : q ∈ r :: others) : q.schema ∈ ts :=
      mem_of_mem_familyMajority (members ▸ schema_mem_of_mem_shapeMajority (group ▸ hq))
    have lower (f : Text) : branchesHeight ((r :: others).filterMap (·.field? f)) <
        branchesHeight ts := branchesHeight_column_lt mem List.mem_cons_self f
    have positive := lower []
    have le := Record.height_schema_le (n := branchesHeight ts - 1)
      (Record.ascending_retyped (r := r)) fun f t found => by
        obtain ⟨_, rfl⟩ := Record.field?_retyped_eq_some.1 found
        exact Nat.le_sub_one_of_lt (Nat.lt_of_le_of_lt (ih f) (lower f))
    omega
  | case7 ts branches rest members =>
    rw [majority_eq_union members]
    exact height_le_branchesHeight (mem_of_mem_familyMajority (members ▸ List.mem_cons_self))

theorem low_majority (low : ∀ t ∈ ts, Low h t) : Low h (majority ts) where
  flat := everywhere_majority (fun _ => trivial) (fun _ _ _ _ => trivial) (fun _ _ _ => trivial)
    fun t ht => (low t ht).flat
  height := by
    have le := branchesHeight_le_iff.2 fun t ht => (low t ht).height
    have := height_majority_le ts
    omega

/-- The rules of a majority, in terms of majorities of the parts of the types. -/
def majorityWith (resolve : List Schema → Schema) (ts : List Schema) : Schema :=
  match familyMajority ts with
  | [] => .null
  | .primitive k :: rest =>
    if k.isNumeric then .primitive ((rest.filterMap Schema.kind?).foldl Kind.widest k)
    else .primitive k
  | .array name items :: rest =>
    .array name (resolve ((.array name items :: rest).filterMap Schema.items?))
  | .record name fields :: rest =>
    match shapeMajority (.record name fields :: rest) with
    | [] => .null
    | r :: others =>
      .record r.name (r.names.map fun f => (f, resolve ((r :: others).filterMap (·.field? f))))
  | .union branches :: _ => .union branches

/-- A majority asks for majorities of lower types only. -/
theorem majorityWith_eq {n : Nat} {resolve : List Schema → Schema}
    (below : ∀ ss, branchesHeight ss < n → resolve ss = majority ss)
    (deep : branchesHeight ts ≤ n) : majorityWith resolve ts = majority ts := by
  unfold majorityWith
  cases members : familyMajority ts with
  | nil => rw [majority_eq_null members]
  | cons first rest =>
    have mem (t : Schema) (ht : t ∈ first :: rest) : t ∈ ts :=
      mem_of_mem_familyMajority (members ▸ ht)
    cases first with
    | primitive k => rw [majority_eq_primitive members]
    | union branches => rw [majority_eq_union members]
    | array n items =>
      have lower := branchesHeight_items_lt mem List.mem_cons_self
      rw [majority_eq_array members, ← below _ (by omega)]
    | record n fields =>
      cases group : shapeMajority (.record n fields :: rest) with
      | nil => simp only [group, majority_eq_null_of_record members group]
      | cons r others =>
        have lower (f : Text) := branchesHeight_column_lt
          (fun q hq => mem _ (schema_mem_of_mem_shapeMajority (group ▸ hq))) List.mem_cons_self f
        have columns (f : Text) : resolve ((r :: others).filterMap (·.field? f)) =
            majority ((r :: others).filterMap (·.field? f)) := by
          apply below
          have := lower f
          omega
        simp only [group, columns, majority_eq_record members group]
        rfl

/-- However majorities nested `n` deep are found, majorities of lower types are the same. -/
theorem majorityWith_iterate (rest : List Schema → Schema) {n : Nat}
    (deep : branchesHeight ts < n) : majorityWith^[n] rest ts = majority ts := by
  induction n generalizing ts with
  | zero => omega
  | succ n ih =>
    rw [Function.iterate_succ_apply']
    exact majorityWith_eq (fun ss lower => ih lower) (by omega)

end Majority

section Steps

/-- The rules of a lenient join, in terms of a join for the parts of the types. -/
def Lenient.joinWith (j : Join) : Join := fun a b =>
  if a = b then .ok a
  else if a = .null then .ok b
  else if b = .null then .ok a
  else if a.isCompound || b.isCompound then joinAll [a, b]
  else joinPlain .lenient j a b

theorem Lenient.join_eq : Lenient.join = joinWith Lenient.join := by
  funext a b
  conv => lhs; unfold Lenient.join
  cases a <;> cases b <;> rfl

/-- The rules of the join of a mode, in terms of a join for the parts of the types. -/
def joinStep : Mode → Join → Join
  | .strict => Strict.joinWith
  | .lenient => Lenient.joinWith

variable {n : Nat} {j j' : Join}

theorem Settled.step (hj : Settled n j j') (mode : Mode) :
    Settled (n + 1) (joinStep mode j) (joinStep mode j') := by
  intro h lower a b ha hb
  have plain : Agreed (Low h) (SchemaInference.joinPlain mode j a b)
      (SchemaInference.joinPlain mode j' a b) :=
    (hj.joinPlain (by omega) ha hb).imp fun c hc => hc.1
  have pair : ∀ t ∈ [a, b], Low h t := forall_mem_pair.2 ⟨ha, hb⟩
  cases mode with
  | strict =>
    simp only [joinStep, Strict.joinWith]
    split
    · exact .ok ha
    split
    · exact .ok hb
    split
    · exact .ok ha
    split
    · exact hj.joinAllWith (by omega) pair
    · exact plain
  | lenient =>
    simp only [joinStep, Lenient.joinWith]
    split
    · exact .ok ha
    split
    · exact .ok hb
    split
    · exact .ok ha
    split
    · rw [Lenient.joinAll_eq]
      exact .ok (low_majority pair)
    · exact plain

theorem settled_iterate (mode : Mode) (j j' : Join) (n : Nat) :
    Settled n ((joinStep mode)^[n] j) ((joinStep mode)^[n] j') := by
  induction n with
  | zero => exact fun h lower => absurd lower (Nat.not_lt_zero h)
  | succ n ih =>
    rw [Function.iterate_succ_apply', Function.iterate_succ_apply']
    exact ih.step mode

theorem Strict.joinWithin_eq (level : Nat) :
    joinWithin level = (joinStep .strict)^[level] (joinWithin 0) := by
  induction level with
  | zero => rfl
  | succ level ih =>
    rw [Function.iterate_succ_apply', ← ih]
    rfl

/-- Where calls are nested deeper than types are high, the joins of these types are found. -/
theorem settled_join (mode : Mode) (rest : Join) (n : Nat) :
    Settled n ((joinStep mode)^[n] rest) (join mode) := by
  intro h lower a b ha hb
  cases mode with
  | lenient =>
    have fixed : (joinStep .lenient)^[n] (join .lenient) = join .lenient :=
      Function.iterate_fixed Lenient.join_eq.symm n
    exact fixed ▸ settled_iterate .lenient rest (join .lenient) n h lower a b ha hb
  | strict =>
    have level : max a.height b.height + 1 ≤ n := by
      have := ha.height
      have := hb.height
      omega
    obtain ⟨k, rfl⟩ := Nat.exists_eq_add_of_le level
    have same := settled_iterate .strict ((joinStep .strict)^[k] rest) (Strict.joinWithin 0)
      (max a.height b.height + 1) (max a.height b.height) (by omega) a b
      ⟨ha.flat, by omega⟩ ⟨hb.flat, by omega⟩
    rw [← Function.iterate_add_apply, ← Strict.joinWithin_eq] at same
    exact same.imp fun c hc => hc.mono (by have := ha.height; have := hb.height; omega)

end Steps

section Inference
variable {mode : Mode} {h n : Nat}

theorem settled_self (mode : Mode) (n : Nat) : Settled n (join mode) (join mode) := by
  intro h lower a b ha hb
  have found := settled_join mode (join mode) n h lower a b ha hb
  exact found.symm.trans found

theorem low_joinAll {ts : List Schema} {c : Schema} (low : ∀ t ∈ ts, Low h t)
    (joined : joinAll mode ts = .ok c) : Low h c := by
  cases mode with
  | strict => exact ((settled_self .strict h).joinAllWith (Nat.le_refl h) low).of_eq_ok joined
  | lenient =>
    cases (Lenient.joinAll_eq ts).symm.trans joined
    exact low_majority low

variable {settings : Settings}

mutual

/-- The schema of a value is no higher than the depth that is left for the value. -/
theorem low_infer {name path : Text} {depth : Int} : ∀ {v : Json} {t : Schema},
    infer settings name path depth v = .ok t → Low (settings.maxDepth - depth + 1).toNat t
  | .scalar s, t, found => by
      obtain ⟨-, k, -, rfl⟩ := infer_scalar_eq_ok.1 found
      exact low_primitive _ k
  | .object members, t, found => by
      obtain ⟨shallow, -, fields, hfields, rfl⟩ := infer_object_eq_ok.1 found
      have left : (settings.maxDepth - depth + 1).toNat =
          (settings.maxDepth - (depth + 1) + 1).toNat + 1 := by omega
      rw [left]
      refine low_record.2 fun e he => ?_
      exact low_inferMembers hfields e (Record.mem_of_mem_sortFields he)
  | .array elements, t, found => by
      obtain ⟨shallow, types, items, htypes, joined, rfl⟩ := infer_array_eq_ok.1 found
      have left : (settings.maxDepth - depth + 1).toNat =
          (settings.maxDepth - (depth + 1) + 1).toNat + 1 := by omega
      rw [left]
      exact low_array.2 (low_joinAll (low_inferElements htypes) joined)

theorem low_inferMembers {path : Text} {depth : Int} :
    ∀ {members : List (Text × Json)} {fields : List (Text × Schema)},
    inferMembers settings path depth members = .ok fields →
      ∀ e ∈ fields, Low (settings.maxDepth - (depth + 1) + 1).toNat e.2
  | [], fields, found => by
      cases found
      simp
  | (key, v) :: rest, fields, found => by
      obtain ⟨-, t, later, ht, hlater, rfl⟩ := inferMembers_cons_eq_ok.1 found
      exact List.forall_mem_cons.2 ⟨low_infer ht, low_inferMembers hlater⟩

theorem low_inferElements {name path : Text} {depth : Int} {index : Nat} :
    ∀ {elements : List Json} {types : List Schema},
    inferElements settings name path depth index elements = .ok types →
      ∀ t ∈ types, Low (settings.maxDepth - (depth + 1) + 1).toNat t
  | [], types, found => by
      cases found
      simp
  | v :: rest, types, found => by
      obtain ⟨t, later, ht, hlater, rfl⟩ := inferElements_cons_eq_ok.1 found
      exact List.forall_mem_cons.2 ⟨low_infer ht, low_inferElements hlater⟩

end

theorem height_infer_le {name path : Text} {depth : Int} {v : Json} {t : Schema}
    (found : infer settings name path depth v = .ok t) :
    (t.height : Int) ≤ settings.maxDepth - depth + 1 := by
  have shallow : depth ≤ settings.maxDepth := by
    cases v with
    | scalar s => exact (infer_scalar_eq_ok.1 found).1
    | object members => exact (infer_object_eq_ok.1 found).1
    | array elements => exact (infer_array_eq_ok.1 found).1
  have le := (low_infer found).height
  omega

end Inference

/--
Joining types that are at most `h` high, in either mode: whatever join `rest` answers the
calls that are nested `n` deep, the outcome is that of the join, and no higher than `h`.
-/
structure JoinsEnd (mode : Mode) (rest : Join) (n h : Nat) : Prop where
  join : ∀ a b, Low h a → Low h b →
    Agreed (Low h) ((joinStep mode)^[n] rest a b) (join mode a b)
  list : ∀ ts, (∀ t ∈ ts, Low h t) →
    Agreed (Low h) (joinList ((joinStep mode)^[n] rest) ts)
      (joinList (SchemaInference.join mode) ts)
  merge : ∀ a b : Record, Low h a.schema → Low h b.schema →
    Agreed (fun c => Low h c.schema) (a.merge ((joinStep mode)^[n] rest) b)
      (a.merge (SchemaInference.join mode) b)
  clusters : ∀ rs : List Record, (∀ r ∈ rs, Low h r.schema) →
    Agreed (fun cs => ∀ c ∈ cs, Low h c.schema) (Record.clusters ((joinStep mode)^[n] rest) rs)
      (Record.clusters (SchemaInference.join mode) rs)

/-- What `JoinsEnd` says of the ways in which strict joins put unions together. -/
structure UnionsEnd (rest : Join) (n h : Nat) : Prop where
  all : ∀ ts, (∀ t ∈ ts, Low h t) →
    Agreed (Low h) (Strict.joinAllWith (Strict.joinWith^[n] rest) ts) (joinAll .strict ts)
  union : ∀ ts, (∀ t ∈ ts, Low h t) →
    Agreed (Low h) (assembleUnion (Strict.joinWith^[n] rest) ts) (assembleUnion Strict.join ts)
  branch : ∀ (table : BranchTable) (added : Schema), (∀ e ∈ table, Low h e.2) → Low h added →
    Agreed (fun next => ∀ e ∈ next, Low h e.2) (table.add (Strict.joinWith^[n] rest) added)
      (table.add Strict.join added)

/-- What `JoinsEnd` says of majorities, which never fail. -/
def MajoritiesEnd (rest : List Schema → Schema) (n h : Nat) : Prop :=
  ∀ ts, (∀ t ∈ ts, Low h t) → joinAll .lenient ts = .ok (majority ts) ∧
    majorityWith^[n] rest ts = majority ts ∧ Low h (majority ts)

section Ends
variable {n h : Nat} (deep : h < n)

include deep

theorem joinsEnd (mode : Mode) (rest : Join) : JoinsEnd mode rest n h := by
  have settled := settled_join mode rest n
  refine ⟨settled h deep, fun ts low => ?_, fun a b ha hb => ?_, fun rs low => ?_⟩
  · exact Settled.joinList (low_primitive h _) (settled h deep) low
  · exact settled.merge (Nat.le_of_lt deep) ha hb
  · exact settled.clusters (Nat.le_of_lt deep) low

theorem unionsEnd (rest : Join) : UnionsEnd rest n h := by
  have settled : Settled n (Strict.joinWith^[n] rest) Strict.join := settled_join .strict rest n
  refine ⟨fun ts low => ?_, fun ts low => ?_, fun table added low ha => ?_⟩
  · exact settled.joinAllWith (Nat.le_of_lt deep) low
  · exact settled.assembleUnion (Nat.le_of_lt deep) low
  · apply Settled.add low ha
    · intro e he
      exact (settled.joinPlain (Nat.le_of_lt deep) (low e he) ha).imp fun c plain => plain.1
    · intro _ e he _
      exact settled h deep e.2 added (low e he) ha

theorem majoritiesEnd (rest : List Schema → Schema) : MajoritiesEnd rest n h := by
  intro ts low
  have le := branchesHeight_le_iff.2 fun t ht => (low t ht).height
  exact ⟨Lenient.joinAll_eq ts, majorityWith_iterate rest (by omega), low_majority low⟩

/--
Evaluation of joins ends: on types at most `h` high, calls are nested at most `h` deep in
either mode, and nothing higher comes out.  So no schema is higher than the depth that is
left for its value.
-/
theorem joins_end_without_growth (mode : Mode) (rest : Join) (resolve : List Schema → Schema) :
    JoinsEnd mode rest n h ∧ UnionsEnd rest n h ∧ MajoritiesEnd resolve n h ∧
      ∀ limit name path depth v t, infer ⟨mode, limit⟩ name path depth v = .ok t →
        (t.height : Int) ≤ limit - depth + 1 := by
  refine ⟨joinsEnd deep mode rest, unionsEnd deep rest, majoritiesEnd deep resolve, ?_⟩
  intro limit name path depth v t found
  exact height_infer_le found

end Ends

/-- A union meets a record that one of its branches is joined with, two calls deep. -/
theorem joins_end_without_growth_of_union :
    (∀ rest, (joinStep .strict)^[2] rest
        (.union [.primitive .int, .record "r" [("x", .primitive .int)]])
        (.record "r" [("x", .primitive .double)]) =
      .ok (.union [.primitive .int, .record "r" [("x", .primitive .double)]])) ∧
    (Schema.array none (.record "r" [])).height ≤ (1 : Int) - 0 + 1 := by
  let a : Schema := .union [.primitive .int, .record "r" [("x", .primitive .int)]]
  let b : Schema := .record "r" [("x", .primitive .double)]
  have low : Low 1 a ∧ Low 1 b := ⟨⟨by decide, by decide⟩, ⟨by decide, by decide⟩⟩
  have joined : join .strict a b =
      .ok (.union [.primitive .int, .record "r" [("x", .primitive .double)]]) :=
    congrArg _ (Schema.unionOf_pair _ _ rfl rfl rfl)
  constructor
  · intro rest
    have ends := joins_end_without_growth (by decide : 1 < 2) .strict rest majority
    exact (ends.1.join a b low.1 low.2).eq.trans joined
  · have ends := joins_end_without_growth (by decide : 1 < 2) .strict Strict.join majority
    exact ends.2.2.2 1 "r" "r" 0 (.array [.object []]) _ rfl

end SchemaInference
