import SchemaInference.Json.Reader

/-!
# Objects of a document

`EveryObject p` says that `p` holds of every object in a document.  A document has distinct
names if no object in it gives a name twice.  Every document that is read has: a member
that is given again takes the place of the earlier one.
-/

namespace SchemaInference

namespace Json

mutual

/-- Whether `p` holds of the members of every object in a value. -/
def EveryObject (p : List (Text × Json) → Prop) : Json → Prop
  | .scalar _ => True
  | .array elements => EveryObjectOfElements p elements
  | .object members => p members ∧ EveryObjectOfMembers p members

/-- Whether `p` holds of the members of every object in the elements. -/
def EveryObjectOfElements (p : List (Text × Json) → Prop) : List Json → Prop
  | [] => True
  | v :: rest => EveryObject p v ∧ EveryObjectOfElements p rest

/-- Whether `p` holds of the members of every object in the values of the members. -/
def EveryObjectOfMembers (p : List (Text × Json) → Prop) : List (Text × Json) → Prop
  | [] => True
  | (_, v) :: rest => EveryObject p v ∧ EveryObjectOfMembers p rest

end

section EveryObject
variable {p : List (Text × Json) → Prop}

section Decidable
variable [DecidablePred p]

mutual

def decidableEveryObject : (v : Json) → Decidable (v.EveryObject p)
  | .scalar _ => inferInstanceAs (Decidable True)
  | .array elements => decidableEveryObjectOfElements elements
  | .object members =>
    have := decidableEveryObjectOfMembers members
    inferInstanceAs (Decidable (p members ∧ EveryObjectOfMembers p members))

def decidableEveryObjectOfElements :
    (elements : List Json) → Decidable (EveryObjectOfElements p elements)
  | [] => inferInstanceAs (Decidable True)
  | v :: rest =>
    have := v.decidableEveryObject
    have := decidableEveryObjectOfElements rest
    inferInstanceAs (Decidable (EveryObject p v ∧ EveryObjectOfElements p rest))

def decidableEveryObjectOfMembers :
    (members : List (Text × Json)) → Decidable (EveryObjectOfMembers p members)
  | [] => inferInstanceAs (Decidable True)
  | (_, v) :: rest =>
    have := v.decidableEveryObject
    have := decidableEveryObjectOfMembers rest
    inferInstanceAs (Decidable (EveryObject p v ∧ EveryObjectOfMembers p rest))

end

instance (v : Json) : Decidable (v.EveryObject p) := v.decidableEveryObject

end Decidable

theorem everyObject_array {elements : List Json} :
    EveryObject p (.array elements) ↔ ∀ v ∈ elements, v.EveryObject p := by
  rw [EveryObject]
  induction elements with
  | nil => simp [EveryObjectOfElements]
  | cons v rest ih => rw [EveryObjectOfElements, ih, List.forall_mem_cons]

theorem everyObject_object {members : List (Text × Json)} :
    EveryObject p (.object members) ↔ p members ∧ ∀ m ∈ members, m.2.EveryObject p := by
  have parts : EveryObjectOfMembers p members ↔ ∀ m ∈ members, m.2.EveryObject p := by
    induction members with
    | nil => simp [EveryObjectOfMembers]
    | cons m rest ih =>
      obtain ⟨name, v⟩ := m
      rw [EveryObjectOfMembers, ih, List.forall_mem_cons]
  rw [EveryObject, parts]

end EveryObject

/-- Whether no object in a value gives a name twice. -/
abbrev DistinctNames (v : Json) : Prop := v.EveryObject fun members => (members.map Prod.fst).Nodup

/-- Whether no object in a value is empty. -/
abbrev NoEmptyObject (v : Json) : Prop := v.EveryObject fun members => members ≠ []

/-- Whether members have distinct names, as well as the objects in their values. -/
def MembersDistinct (members : List (Text × Json)) : Prop := DistinctNames (.object members)

theorem membersDistinct_iff {members : List (Text × Json)} : MembersDistinct members ↔
    (members.map Prod.fst).Nodup ∧ ∀ m ∈ members, m.2.DistinctNames := by
  rw [MembersDistinct, DistinctNames, everyObject_object]

theorem membersDistinct_put {name : Text} {v : Json} {before : List (Text × Json)}
    (h : MembersDistinct before) (hv : v.DistinctNames) :
    MembersDistinct (Keyed.put name v before) := by
  obtain ⟨distinct, parts⟩ := membersDistinct_iff.1 h
  refine membersDistinct_iff.2 ⟨Keyed.nodup_keys_put distinct, fun m hm => ?_⟩
  rcases Keyed.mem_of_mem_put hm with rfl | hm
  · exact hv
  · exact parts m hm

/-- What has been read of an open container has distinct names. -/
def Frame.Distinct : Frame → Prop
  | .array before => ∀ v ∈ before, v.DistinctNames
  | .object before _ => MembersDistinct before

/-- What a stage holds has distinct names. -/
def Stage.Distinct : Stage → Prop
  | .value | .firstElement | .firstName => True
  | .name before | .colon before _ => MembersDistinct before
  | .complete v => v.DistinctNames

namespace Reading

/-- All that has been read has distinct names. -/
def Distinct (r : Reading) : Prop := (∀ f ∈ r.frames, f.Distinct) ∧ r.stage.Distinct

variable {frames : List Frame} {token : Token} {next : Reading}

theorem distinct_beginValue (h : ∀ f ∈ frames, f.Distinct)
    (taken : beginValue frames token = .ok next) : next.Distinct := by
  cases token with
  | openArray =>
    simp only [beginValue, enter] at taken
    split at taken
    · cases taken
      exact ⟨List.forall_mem_cons.2 ⟨by simp [Frame.Distinct], h⟩, trivial⟩
    · cases taken
  | openObject =>
    simp only [beginValue, enter] at taken
    split at taken
    · cases taken
      exact ⟨h, trivial⟩
    · cases taken
  | word s =>
    cases taken
    exact ⟨h, trivial⟩
  | text s =>
    cases taken
    exact ⟨h, trivial⟩
  | _ => cases taken

theorem distinct_beginMember {before : List (Text × Json)} (h : ∀ f ∈ frames, f.Distinct)
    (members : MembersDistinct before) (taken : beginMember frames before token = .ok next) :
    next.Distinct := by
  cases token with
  | text s =>
    cases taken
    exact ⟨h, members⟩
  | _ => cases taken

theorem distinct_afterValue {v : Json} (h : ∀ f ∈ frames, f.Distinct) (hv : v.DistinctNames)
    (taken : afterValue v frames token = .ok next) : next.Distinct := by
  cases frames with
  | nil => cases taken
  | cons frame frames =>
    obtain ⟨first, outer⟩ := List.forall_mem_cons.1 h
    cases frame with
    | array before =>
      have elements : ∀ w ∈ v :: before, w.DistinctNames := List.forall_mem_cons.2 ⟨hv, first⟩
      cases token with
      | comma =>
        cases taken
        exact ⟨List.forall_mem_cons.2 ⟨elements, outer⟩, trivial⟩
      | closeArray =>
        cases taken
        exact ⟨outer, everyObject_array.2 fun w hw => elements w (List.mem_reverse.1 hw)⟩
      | _ => cases taken
    | object before name =>
      have members : MembersDistinct (Keyed.put name v before) := membersDistinct_put first hv
      cases token with
      | comma =>
        cases taken
        exact ⟨outer, members⟩
      | closeObject =>
        cases taken
        exact ⟨outer, members⟩
      | _ => cases taken

theorem distinct_step {r : Reading} (h : r.Distinct) (taken : r.step token = .ok next) :
    next.Distinct := by
  obtain ⟨frames, stage⟩ := r
  obtain ⟨hframes, hstage⟩ := h
  have empty : MembersDistinct [] := membersDistinct_iff.2 ⟨.nil, by simp⟩
  cases stage with
  | value => exact distinct_beginValue hframes taken
  | firstElement =>
    simp only [step] at taken
    split at taken
    · cases taken
      exact ⟨fun f hf => hframes f (List.mem_cons_of_mem _ hf),
        everyObject_array.2 (by simp)⟩
    · exact distinct_beginValue hframes taken
  | firstName =>
    simp only [step] at taken
    split at taken
    · cases taken
      exact ⟨hframes, empty⟩
    · exact distinct_beginMember hframes empty taken
  | name before => exact distinct_beginMember hframes hstage taken
  | colon before name =>
    simp only [step] at taken
    split at taken
    · cases taken
      exact ⟨List.forall_mem_cons.2 ⟨hstage, hframes⟩, trivial⟩
    · cases taken
  | complete v => exact distinct_afterValue hframes hstage taken

theorem distinct_run {tokens : List Token} {r last : Reading} (h : r.Distinct)
    (taken : r.run tokens = .ok last) : last.Distinct := by
  induction tokens generalizing r with
  | nil => cases taken; exact h
  | cons token rest ih =>
    simp only [run] at taken
    split at taken
    · next stepped => exact ih (distinct_step h stepped) taken
    · cases taken

end Reading

/-- A document that is read gives no name twice in one object. -/
theorem distinctNames_of_parse {tokens : List Token} {v : Json} (h : parse tokens = .ok v) :
    v.DistinctNames := by
  simp only [parse] at h
  split at h
  · cases h
  · next r taken =>
    obtain ⟨_, hstage⟩ := Reading.distinct_run
      (show Reading.start.Distinct from ⟨by simp [Reading.start], trivial⟩) taken
    obtain ⟨frames, stage⟩ := r
    cases stage with
    | complete w =>
      cases frames with
      | nil => cases h; exact hstage
      | cons frame frames => cases h
    | _ => cases h

theorem distinctNames_of_read {t : Text} {v : Json} (h : read t = .ok v) : v.DistinctNames := by
  have decoded {t : Text} (h : readDecoded t = .ok v) : v.DistinctNames := by
    simp only [readDecoded] at h
    split at h
    · next parsed => cases h; exact distinctNames_of_parse parsed
    · cases h
  simp only [read] at h
  split at h
  · cases h
  · exact decoded h

end Json

end SchemaInference
