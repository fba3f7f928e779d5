/-!
# Records in documents

A document gives the fields of a record as members with names. `slots?` sorts the members into one
slot a field: a name may not repeat, and a record may be closed to names it does not have. What a
slot must hold is then said field by field: a value, perhaps a value, or else a default.
-/

namespace TroughTrader.Record

/-- The members sorted by the names of the fields. A closed record refuses other names. -/
def slots? {σ : Type} (closed : Bool) (names : List String) (members : List (String × σ)) :
    Option (List (Option σ)) :=
  if closed && members.any (fun m => !names.contains m.1) then none
  else if names.any (fun name => 1 < members.countP (fun m => m.1 == name)) then none
  else some (names.map fun name => members.lookup name)

def required {σ α : Type} (read : σ → Option α) (slot : Option σ) : Option α := slot.bind read

def orDefault {σ α : Type} (default : α) (read : σ → Option α) : Option σ → Option α
  | none => some default
  | some v => read v

end TroughTrader.Record
