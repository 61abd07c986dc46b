import ScorePortfolio.Document.Scalar
import ScorePortfolio.Entries

/-!
# Documents

A document is a scalar, a list of documents, or a mapping from scalars to documents that keeps the
order of its entries.  Configurations, strategies and all their parts are read from documents.
-/

namespace ScorePortfolio

/-- A value of a document. -/
inductive Doc where
  | scalar (value : Scalar)
  | list (items : List Doc)
  | map (entries : List (Scalar × Doc))

namespace Doc

/-- The empty value. -/
abbrev null : Doc := scalar .null

/-- A text. -/
abbrev text (s : String) : Doc := scalar (.text s)

/-- An integer. -/
abbrev int (n : Int) : Doc := scalar (.int n)

/-- A mapping from texts. -/
def record (fields : List (String × Doc)) : Doc := map (fields.map fun (k, v) ↦ (.text k, v))

instance : Inhabited Doc := ⟨null⟩

/-! ## Entries -/

/-- The value of a key among entries. -/
def find? (key : Scalar) (entries : List (Scalar × Doc)) : Option Doc :=
  Entries.find? Scalar.same key entries

/-- A mapping from entries whose keys may repeat. -/
def ofEntries (entries : List (Scalar × Doc)) : Doc := map (Entries.ofList Scalar.same entries)

/-- Whether the value is a mapping. -/
def isMap : Doc → Bool
  | map _ => true
  | _ => false

/-- The value of a text key, if the document is a mapping that has it. -/
def field? (key : String) : Doc → Option Doc
  | map entries => find? (.text key) entries
  | _ => none

/-- The value at the end of a path of keys, or a default where the path leaves the mappings. -/
def nested (default : Doc) : List String → Doc → Doc
  | [], doc => doc
  | key :: keys, doc =>
    match doc.field? key with
    | some value => nested default keys value
    | none => default

/-- Whether the value counts as a yes: all do but null, false, zero and what is empty. -/
def isTruthy : Doc → Bool
  | scalar s => s.isTruthy
  | list items => !items.isEmpty
  | map entries => !entries.isEmpty

/-! ## Equality -/

mutual

/-- Whether two documents are equal as values; the order of a mapping's entries does not count. -/
def same : Doc → Doc → Bool
  | scalar a, scalar b => a.same b
  | list xs, list ys => sameItems xs ys
  | map es, map fs => es.length == fs.length && sameEntries es fs
  | _, _ => false
termination_by structural doc => doc

/-- Whether the items of two lists are equal one by one. -/
def sameItems : List Doc → List Doc → Bool
  | [], [] => true
  | x :: xs, y :: ys => same x y && sameItems xs ys
  | _, _ => false
termination_by structural items => items

/-- Whether each entry has an equal one among others. -/
def sameEntries : List (Scalar × Doc) → List (Scalar × Doc) → Bool
  | [], _ => true
  | e :: es, fs => sameEntry e fs && sameEntries es fs
termination_by structural entries => entries

/-- Whether an entry has an equal one among others. -/
def sameEntry : Scalar × Doc → List (Scalar × Doc) → Bool
  | (key, value), fs => (find? key fs).any fun other ↦ same value other
termination_by structural entry => entry

end

/-! ## Texts -/

mutual

/-- The text of a value with quotes around texts: lists in brackets, mappings in braces. -/
def shown : Doc → String
  | scalar s => s.shown
  | list items => Text.bracketed (shownItems items)
  | map entries => "\x7b" ++ ", ".intercalate (shownEntries entries) ++ "\x7d"
termination_by structural doc => doc

/-- The texts of items. -/
def shownItems : List Doc → List String
  | [] => []
  | x :: xs => shown x :: shownItems xs
termination_by structural items => items

/-- The texts of entries. -/
def shownEntries : List (Scalar × Doc) → List String
  | [] => []
  | e :: es => shownEntry e :: shownEntries es
termination_by structural entries => entries

/-- The text of an entry: key, colon, value. -/
def shownEntry : Scalar × Doc → String
  | (key, value) => key.shown ++ ": " ++ shown value
termination_by structural entry => entry

end

/-- The bare text of a value; only a text by itself stands without quotes. -/
def asText : Doc → String
  | scalar s => s.asText
  | doc => doc.shown

@[simp] theorem asText_text (s : String) : (text s).asText = s := rfl

end Doc

end ScorePortfolio
