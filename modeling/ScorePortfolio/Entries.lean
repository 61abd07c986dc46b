/-!
# Entries in order

Lists of keys with values in which each key occurs once.  Setting the value of a key that is there
leaves it in its place; a new key comes last.
-/

namespace ScorePortfolio.Entries

variable {κ β : Type}

/-- The entries with a value set. -/
def put (same : κ → κ → Bool) (entries : List (κ × β)) (key : κ) (value : β) : List (κ × β) :=
  if entries.any fun entry ↦ same entry.1 key then
    entries.map fun entry ↦ if same entry.1 key then (entry.1, value) else entry
  else entries ++ [(key, value)]

/-- The entries of a list in which keys may repeat: each key in its first place, with its last
value. -/
def ofList (same : κ → κ → Bool) (list : List (κ × β)) : List (κ × β) :=
  list.foldl (fun entries (key, value) ↦ put same entries key value) []

/-- The value of a key. -/
def find? (same : κ → κ → Bool) (key : κ) (entries : List (κ × β)) : Option β :=
  (entries.find? fun entry ↦ same entry.1 key).map (·.2)

end ScorePortfolio.Entries
