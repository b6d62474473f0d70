import SyntaxForest.Node.Form
import SyntaxForest.Proofs.Slots

/-!
# Written forms

A record with given fields can be written down in many ways (`Json.RecordOf`): as an object with the
fields in any order, with further fields under names that the record does not have, and without
fields that are null; or as the array of the values of its fields in order. A node is written as such
a record under the name of its kind, and the location inside it is a record again, in a form of its
own (`Node.WrittenAs`). The only null fields of a node are its empty single slots.

Every one of these forms is read as the node it was made from, for nodes of every kind
(`Node.written_forms_read_back`). Readers only look fields up by their names, so it is enough that
the fields that a form shows are found there with their values (`Json.RecordOf.exists_record?`), and
that contents, locations and slots are read from fields that are found.
-/

namespace SyntaxForest

namespace Json

/-- The forms of a record with the given fields. -/
inductive RecordOf (fields : List (String × Json)) : Json → Prop
  /-- An object has the fields in any order. Null fields may be left out, and fields of other names
  may stand among the rest. -/
  | object {kept further written : List (String × Json)} (hkept : kept.Sublist fields)
      (hnull : ∀ e ∈ fields, e ∉ kept → e.2 = .null)
      (hfurther : ∀ e ∈ further, e.1 ∉ fields.map Prod.fst)
      (hperm : written.Perm (kept ++ further)) : RecordOf fields (.obj written)
  /-- An array has the values of all fields in order. -/
  | array : RecordOf fields (.arr (fields.map Prod.snd))

/-- A record is shown by the object of its fields. -/
lemma recordOf_obj (fields : List (String × Json)) : RecordOf fields (.obj fields) := by
  have hperm : fields.Perm (fields ++ []) := by rw [List.append_nil]
  exact .object (List.Sublist.refl fields) (fun e he hnot => absurd he hnot)
    (fun e he => absurd he List.not_mem_nil) hperm

/-- A name that no field has is not found. -/
lemma lookup_eq_none_of_notMem {fields : List (String × Json)} {name : String}
    (h : ∀ e ∈ fields, e.1 ≠ name) : fields.lookup name = none := by
  refine List.lookup_eq_none_iff.2 fun e he => ?_
  simpa using (h e he).symm

/-- A field is found in a record, or it is null and left out. -/
def Shows (read : List (String × Json)) (e : String × Json) : Prop :=
  read.lookup e.1 = some e.2 ∨ e.2 = .null ∧ read.lookup e.1 = none

/-- Whatever the form of a record, its fields can be read. -/
theorem RecordOf.exists_record? {fields : List (String × Json)} {j : Json} (h : RecordOf fields j)
    (hnodup : (fields.map Prod.fst).Nodup) :
    ∃ read, j.record? (fields.map Prod.fst) = some read ∧ ∀ e ∈ fields, Shows read e := by
  have hsame : ∀ d ∈ fields, ∀ e ∈ fields, d.1 = e.1 → d = e := fun d hd e he heq =>
    List.inj_on_of_nodup_map hnodup hd he heq
  cases h with
  | @object kept further written hkept hnull hfurther hperm =>
    refine ⟨written, rfl, fun e he => ?_⟩
    have hmem : ∀ {d}, d ∈ written ↔ d ∈ kept ∨ d ∈ further := fun {d} =>
      hperm.mem_iff.trans List.mem_append
    -- What has the name of a field is this field, since further fields have other names.
    have hnamed : ∀ d ∈ written, d.1 = e.1 → d ∈ kept ∧ d = e := by
      intro d hd heq
      rcases hmem.1 hd with hd | hd
      · exact ⟨hd, hsame d (hkept.subset hd) e he heq⟩
      · exact absurd (List.mem_map.2 ⟨e, he, heq.symm⟩) (hfurther d hd)
    by_cases hin : e ∈ kept
    · exact .inl (lookup_eq_some_of_mem (hmem.2 (.inl hin)) fun d hd heq => (hnamed d hd heq).2)
    · refine .inr ⟨hnull e he hin, lookup_eq_none_of_notMem fun d hd heq => hin ?_⟩
      obtain ⟨hd, rfl⟩ := hnamed d hd heq
      exact hd
  | array =>
    have hzip : (fields.map Prod.fst).zip (fields.map Prod.snd) = fields :=
      (List.zip_of_prod rfl rfl).symm
    refine ⟨fields, ?_, fun e he => .inl ?_⟩
    · rw [record?, if_pos (by rw [List.length_map, List.length_map]), hzip]
    · exact lookup_eq_some_of_mem he fun d hd heq => hsame d hd e he heq

/-- A field that is not null is found. -/
lemma Shows.lookup_eq {read : List (String × Json)} {e : String × Json} (h : Shows read e)
    (hnull : e.2 ≠ .null) : read.lookup e.1 = some e.2 :=
  h.resolve_right fun hleft => hnull hleft.1

end Json

/-! ### Locations -/

namespace Location

/-- A location is read from fields that hold its values. -/
lemma ofFields?_of_lookup {l : Location} {read : List (String × Json)}
    (h : ∀ e ∈ l.fields, read.lookup e.1 = some e.2) : ofFields? read = some l := by
  simp only [fields, List.forall_mem_cons] at h
  simp [ofFields?, Json.required?, h, Json.str?]

/-- A location is read back from every form of its record. -/
theorem ofJson?_of_recordOf {l : Location} {j : Json} (h : Json.RecordOf l.fields j) :
    ofJson? j = some l := by
  have hnodup : (l.fields.map Prod.fst).Nodup := by
    change fieldNames.Nodup
    decide
  obtain ⟨read, hread, hshows⟩ := h.exists_record? hnodup
  have hnull : ∀ e ∈ l.fields, e.2 ≠ .null := by simp [fields, Json.ofWord]
  have hfields := ofFields?_of_lookup fun e he => (hshows e he).lookup_eq (hnull e he)
  change j.record? fieldNames = some read at hread
  rw [ofJson?, hread, Option.bind_some, hfields]

/-- No form of the record of a location is null. -/
lemma ne_null_of_recordOf {l : Location} {j : Json} (h : Json.RecordOf l.fields j) :
    j ≠ .null := by
  cases h <;> simp

end Location

/-! ### Slots -/

namespace Slot

/-- Only an empty single slot is written as null. -/
lemma eq_single_none_of_toJson {s : Slot} (h : s.toJson = .null) : s = .single none := by
  cases s with
  | single occupant =>
    cases occupant with
    | none => rfl
    | some id => cases h
  | list children => cases h

/-- A slot is read from the field that shows its contents. -/
lemma ofField?_of_shows {s : Slot} {name : String} {read : List (String × Json)}
    (h : Json.Shows read (name, s.toJson)) : ofField? s.shape read name = some s := by
  rcases h with hfound | ⟨hnull, hleft⟩
  · have hjson : ofField? s.shape read name = ofJson? s.shape s.toJson := by
      unfold ofField?
      rw [hfound]
      cases s <;> rfl
    rw [hjson, ofJson?_toJson]
  · obtain rfl := eq_single_none_of_toJson hnull
    unfold ofField?
    rw [hleft]
    rfl

end Slot

/-! ### Nodes -/

namespace Node

/-- The fields of a node with their values, where the location is written in a given form. -/
def fieldsWith (n : Node) (location : Json) : List (String × Json) :=
  ("id", .ofId n.id) :: ("location", location) ::
    (n.content.fields ++ n.stored.map fun e => (e.1, e.2.toJson))

/-- The forms of a node: a record under the name of the kind, with a form of the location inside. -/
inductive WrittenAs (n : Node) : Json → Prop
  | record {location body : Json} (hlocation : Json.RecordOf n.location.fields location)
      (hbody : Json.RecordOf (n.fieldsWith location) body) :
      WrittenAs n (.obj [(Vocabulary.name n.kind, body)])

/-- The names of the fields of a node go by its kind. -/
lemma map_fst_fieldsWith (n : Node) (location : Json) :
    (n.fieldsWith location).map Prod.fst = fieldNames n.kind := by
  have hslots : (n.stored.map fun e => (e.1, e.2.toJson)).map Prod.fst =
      n.kind.table.map SlotRow.field := by
    rw [← n.map_fst_stored, List.map_map]
    rfl
  rw [fieldsWith, List.map_cons, List.map_cons, List.map_append, Content.map_fst_fields, hslots]
  rfl

/-- No kind has two fields of one name. -/
lemma nodup_fieldNames (k : Kind) : (fieldNames k).Nodup := by
  cases k <;> decide

/-- The plain data of a node are never null. -/
lemma ne_null_of_mem_fields {c : Content} {e : String × Json} (he : e ∈ c.fields) :
    e.2 ≠ .null := by
  revert e
  cases c <;> simp [Content.fields, Json.ofWord, Json.ofMember]

/-- The slots of a node are read from fields that show them. -/
lemma mapM_ofField?_of_shows {slots : List (Property × Slot)} {read : List (String × Json)}
    (hshape : ∀ e ∈ slots, e.2.shape = e.1.shape)
    (h : ∀ e ∈ slots, Json.Shows read (e.1.field, e.2.toJson)) :
    ((slots.map fun e => e.1.row).mapM fun row =>
      (Slot.ofField? row.shape read row.field).map fun s => (row.property, s)) = some slots := by
  induction slots with
  | nil => rfl
  | cons e slots ih =>
    rw [List.forall_mem_cons] at hshape h
    have hslot : Slot.ofField? e.1.row.shape read e.1.row.field = some e.2 := by
      change Slot.ofField? e.1.shape read e.1.field = some e.2
      rw [← hshape.1]
      exact Slot.ofField?_of_shows h.1
    rw [List.map_cons, List.mapM_cons, hslot, ih hshape.2 h.2]
    rfl

/-- A node is read from fields that show what it is made of. -/
lemma ofFields?_of_shows {n : Node} {location : Json} {read : List (String × Json)}
    (hlocation : Json.RecordOf n.location.fields location)
    (h : ∀ e ∈ n.fieldsWith location, Json.Shows read e) : ofFields? n.kind read = some n := by
  simp only [fieldsWith, stored_eq, List.forall_mem_cons, List.forall_mem_append,
    List.forall_mem_map] at h
  obtain ⟨hid, hloc, hcontent, hslots⟩ := h
  have hidRead : Json.required? read "id" Json.id? = some n.id := by
    rw [Json.required?, hid.lookup_eq (by simp [Json.ofId, Json.ofWord])]
    exact Json.id?_ofId n.id
  have hlocationRead : Json.required? read "location" Location.ofJson? = some n.location := by
    rw [Json.required?, hloc.lookup_eq (Location.ne_null_of_recordOf hlocation)]
    exact Location.ofJson?_of_recordOf hlocation
  have hcontentRead : Content.ofFields? n.kind read = some n.content :=
    Content.ofFields?_of_lookup fun e he => (hcontent e he).lookup_eq (ne_null_of_mem_fields he)
  have hslotsRead := mapM_ofField?_of_shows (fun e he => shape_of_mem_slots he) hslots
  rw [← n.table_eq] at hslotsRead
  unfold ofFields?
  rw [hidRead, hlocationRead, hcontentRead, hslotsRead]
  exact dif_pos n.fits

/-- What stands under the name of a kind is read as the record of a node of this kind. -/
lemma ofJson?_name (k : Kind) (body : Json) :
    ofJson? (.obj [(Vocabulary.name k, body)]) = (body.record? (fieldNames k)).bind (ofFields? k) := by
  change (Vocabulary.ofName? (Vocabulary.name k)).bind (fun k =>
    (body.record? (fieldNames k)).bind (ofFields? k)) = _
  rw [Vocabulary.ofName?_name, Option.bind_some]

/-- Every node is read back from what is written for it, and from every other form in which it can
be written: with its fields in any order, among fields that it does not have, without empty single
slots, as an array of values, and with the location in any such form. -/
theorem written_forms_read_back (n : Node) :
    ofJson? n.toJson = some n ∧ n.WrittenAs n.toJson ∧
      ∀ j, n.WrittenAs j → ofJson? j = some n := by
  have hlocation : Json.RecordOf n.location.fields n.location.toJson := Json.recordOf_obj _
  have hform : n.WrittenAs n.toJson := .record hlocation (Json.recordOf_obj _)
  have hread : ∀ j, n.WrittenAs j → ofJson? j = some n := by
    rintro _ ⟨hlocation, hbody⟩
    obtain ⟨read, hrecord, hshows⟩ := hbody.exists_record? (by
      rw [map_fst_fieldsWith]
      exact nodup_fieldNames n.kind)
    rw [map_fst_fieldsWith] at hrecord
    rw [ofJson?_name, hrecord]
    exact ofFields?_of_shows hlocation hshows
  exact ⟨hread _ hform, hform, hread⟩

/-- A loop with a condition and without a body. -/
def bodilessLoop : Node :=
  make ⟨10, 19, 2, 4, 2, 13, "while (x)"⟩ .whileStatement fun p =>
    .single (if p = .conditionExpression then some ⟨3⟩ else none)

/-- The loop is read back from an object that starts with a note, has the fields of the loop from the
last to the first, leaves out the body, and has the location as an array. -/
theorem written_forms_read_back_of_bodiless_loop :
    let location : Json :=
      .arr [.int 10, .int 19, .int 2, .int 4, .int 2, .int 13, .str "while (x)"]
    let body : Json := .obj
      [("note", .str "lost"), ("condition", .int 3), ("location", location), ("id", .int 0)]
    bodilessLoop.WrittenAs (.obj [("WhileStatement", body)]) ∧
      ofJson? (.obj [("WhileStatement", body)]) = some bodilessLoop := by
  intro location body
  let kept : List (String × Json) := [("id", .int 0), ("location", location), ("condition", .int 3)]
  let further : List (String × Json) := [("note", .str "lost")]
  have hfields : bodilessLoop.fieldsWith location = kept ++ [("body", .null)] := rfl
  have hkept : kept.Sublist (bodilessLoop.fieldsWith location) := by
    rw [hfields]
    exact List.sublist_append_left kept _
  have hnull : ∀ e ∈ bodilessLoop.fieldsWith location, e ∉ kept → e.2 = .null := by
    intro e he hnot
    rw [hfields] at he
    rw [List.mem_singleton.1 ((List.mem_append.1 he).resolve_left hnot)]
  have hfurther : ∀ e ∈ further, e.1 ∉ (bodilessLoop.fieldsWith location).map Prod.fst := by
    rw [map_fst_fieldsWith]
    decide
  have hbody : Json.RecordOf (bodilessLoop.fieldsWith location) body :=
    .object hkept hnull hfurther (List.reverse_perm (kept ++ further))
  have hform : bodilessLoop.WrittenAs (.obj [("WhileStatement", body)]) := .record .array hbody
  exact ⟨hform, bodilessLoop.written_forms_read_back.2.2 _ hform⟩

end Node

end SyntaxForest
