import SimpleBinary.Json.Basic

/-!
# Records of a document

A record is written as an object of named members or as an array of its members in their declared
order. In an object a known member is given at most once and unknown ones are passed over; an array
may stop early but holds no more than the record's members.
-/

namespace SimpleBinary

/-- The members of a record that were given. -/
structure Record where
  positional : Bool
  members : List (String × Json)

namespace Record

/-- The record of a value whose members have the given names. -/
def ofJson? (names : List String) : Json → Option Record
  | .object members =>
    let known := members.filter fun m => names.contains m.1
    if (known.map (·.1)).Nodup then some ⟨false, known⟩ else none
  | .array items => if items.length ≤ names.length then some ⟨true, names.zip items⟩ else none
  | _ => none

variable {α : Type}

/-- A member that has to be there. -/
def required (r : Record) (name : String) (read : Json → Option α) : Option α :=
  (r.members.lookup name).bind read

/-- A member with a value for when it is left out. -/
def defaulted (r : Record) (name : String) (value : α) (read : Json → Option α) : Option α :=
  match r.members.lookup name with
  | none => some value
  | some j => read j

/-- A member that may be left out or `null`. -/
def optional (r : Record) (name : String) (read : Json → Option α) : Option (Option α) :=
  r.defaulted name none fun j => if j.isNull then some none else (read j).map some

/-- A member that may be left out of an object, but not of an array, or `null`. -/
def nullable (r : Record) (name : String) (read : Json → Option α) : Option (Option α) :=
  if r.positional && (r.members.lookup name).isNone then none else r.optional name read

end Record

/-- A choice among names: the name, or an object whose only member has that name and is `null`. -/
def Json.choice? (options : List (String × α)) : Json → Option α
  | .text s => options.lookup s
  | .object [(s, .null)] => options.lookup s
  | _ => none

end SimpleBinary
