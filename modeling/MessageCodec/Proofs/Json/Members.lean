import Mathlib.Data.List.Nodup
import MessageCodec.Json.Value

/-! The members of JSON objects. Each name has one value, the one that was added last. -/

namespace MessageCodec

theorem lookup_of_mem {α : Type} {entries : List (String × α)} {name : String} {v : α}
    (names : (entries.map Prod.fst).Nodup) (mem : (name, v) ∈ entries) :
    entries.lookup name = some v := by
  obtain ⟨front, behind, rfl⟩ := List.append_of_mem mem
  refine List.lookup_eq_some_iff.2 ⟨front, behind, rfl, fun entry before => bne_iff_ne.2 ?_⟩
  rw [List.map_append, List.nodup_append] at names
  exact (names.2.2 entry.1 (List.mem_map_of_mem before) name (List.mem_cons_self ..)).symm

namespace Json

namespace Members

theorem insert_of_new {members : Members} {name : String}
    (new : name ∉ members.map Prod.fst) (item : Json) :
    members.insert name item = members ++ [(name, item)] := by
  induction members with
  | nil => rfl
  | cons member members ih =>
    rw [List.map_cons, List.mem_cons, not_or] at new
    rw [insert, if_neg (Ne.symm new.1), ih new.2]
    rfl

/-- A name that is apart from those in front of it and behind it is added behind the former. -/
theorem insert_of_nodup {members : Members} {name : String} {names : List String}
    (apart : (members.map Prod.fst ++ name :: names).Nodup) (item : Json) :
    members.insert name item = members ++ [(name, item)] ∧
      ((members ++ [(name, item)]).map Prod.fst ++ names).Nodup := by
  have fresh := (List.nodup_append.1 apart).2.2
  refine ⟨insert_of_new (fun mem => ?_) item, ?_⟩
  · exact fresh name mem name (List.mem_cons_self ..) rfl
  · rw [List.map_append, List.append_assoc]
    exact apart

theorem find?_insert_self (members : Members) (name : String) (item : Json) :
    (members.insert name item).find? name = some item := by
  induction members with
  | nil => simp [insert, find?]
  | cons member members ih =>
    rw [insert]
    split
    · simp [find?]
    · rename_i other
      rw [find?, List.lookup_cons, beq_false_of_ne (Ne.symm other)]
      exact ih

theorem find?_of_not_mem {members : Members} {name : String}
    (absent : name ∉ members.map Prod.fst) : members.find? name = none := by
  rw [find?, List.lookup_eq_none_iff]
  intro member mem
  rw [bne_iff_ne]
  rintro rfl
  exact absent (List.mem_map_of_mem mem)

theorem find?_of_mem {members : Members} {name : String} {item : Json}
    (names : (members.map Prod.fst).Nodup) (mem : (name, item) ∈ members) :
    members.find? name = some item :=
  lookup_of_mem names mem

theorem map_fst_insert_of_mem {members : Members} {name : String}
    (known : name ∈ members.map Prod.fst) (item : Json) :
    (members.insert name item).map Prod.fst = members.map Prod.fst := by
  induction members with
  | nil => cases known
  | cons member members ih =>
    rw [insert]
    split
    · rename_i same
      rw [List.map_cons, List.map_cons, same]
    · rename_i other
      rw [List.map_cons, List.mem_cons] at known
      rw [List.map_cons, List.map_cons, ih (known.resolve_left (Ne.symm other))]

theorem nodup_insert {members : Members} (names : (members.map Prod.fst).Nodup) (name : String)
    (item : Json) : ((members.insert name item).map Prod.fst).Nodup := by
  by_cases known : name ∈ members.map Prod.fst
  · rwa [map_fst_insert_of_mem known]
  · have apart : (members.map Prod.fst ++ [name]).Nodup := by
      rw [← List.concat_eq_append]
      exact names.concat known
    obtain ⟨added, names⟩ := insert_of_nodup apart item
    rwa [List.append_nil, ← added] at names

theorem mem_insert {members : Members} {name : String} {item : Json} {member : String × Json}
    (mem : member ∈ members.insert name item) : member = (name, item) ∨ member ∈ members := by
  induction members with
  | nil => exact .inl (List.mem_singleton.1 mem)
  | cons first members ih =>
    rw [insert] at mem
    split at mem
    · exact (List.mem_cons.1 mem).imp_right (List.mem_cons_of_mem _)
    · obtain rfl | mem := List.mem_cons.1 mem
      · exact .inr (List.mem_cons_self ..)
      · exact (ih mem).imp_right (List.mem_cons_of_mem _)

end Members

end Json

end MessageCodec
