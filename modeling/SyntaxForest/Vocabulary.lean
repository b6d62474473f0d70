/-!
# Vocabularies

A vocabulary is a finite type whose members are listed in a fixed order and carry pairwise
different names. `Vocabulary.ofName?` reads a name back; `Vocabulary.ofName?_eq_some_iff` says
that it accepts exactly the names of the members.
-/

namespace SyntaxForest

/-- A finite type, listed in a fixed order, each member with a name of its own. -/
class Vocabulary (α : Type) where
  /-- All members, in their fixed order. -/
  members : List α
  /-- The name of a member. -/
  name : α → String
  /-- The list leaves no member out. -/
  mem_members : ∀ a : α, a ∈ members
  /-- No two members of the list share a name. -/
  nodup_names : (members.map name).Nodup

namespace Vocabulary

variable {α : Type} [Vocabulary α]

/-- The member with a given name. -/
def ofName? (s : String) : Option α :=
  members.find? fun a => name a == s

/-- Different members have different names. -/
theorem name_inj {a b : α} : name a = name b ↔ a = b := by
  refine ⟨fun h => ?_, congrArg name⟩
  obtain ⟨i, hi, rfl⟩ := List.getElem_of_mem (mem_members a)
  obtain ⟨j, hj, rfl⟩ := List.getElem_of_mem (mem_members b)
  have hi' : i < ((members : List α).map name).length := by simpa using hi
  have hj' : j < ((members : List α).map name).length := by simpa using hj
  have hn : ((members : List α).map name)[i] = ((members : List α).map name)[j] := by
    simpa using h
  have hij : i = j := (List.getElem_inj nodup_names).1 hn
  subst hij
  rfl

/-- A name is read as a member exactly when it is the name of that member. -/
theorem ofName?_eq_some_iff {s : String} {a : α} : ofName? s = some a ↔ name a = s := by
  constructor
  · intro h
    simpa using List.find?_some h
  · rintro rfl
    rw [ofName?]
    cases h : members.find? fun b : α => name b == name a with
    | none => exact absurd (List.find?_eq_none.1 h a (mem_members a)) (by simp)
    | some b =>
      have hb : name b = name a := by simpa using List.find?_some h
      rw [name_inj.1 hb]

@[simp] theorem ofName?_name (a : α) : ofName? (name a) = some a :=
  ofName?_eq_some_iff.2 rfl

end Vocabulary

end SyntaxForest
