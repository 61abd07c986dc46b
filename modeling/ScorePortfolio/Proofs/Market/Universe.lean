import ScorePortfolio.Market.TableClient
import ScorePortfolio.Proofs.Entries

/-!
# The universe of a market

The universe of a market has each symbol once, and each of its assets has a column of prices.  If
all columns are labelled by texts, the label is the symbol.
-/

namespace ScorePortfolio

variable {α : Type}

/-- Every column is labelled by a text. -/
def Table.HasTextLabels (T : Table α) : Prop :=
  ∀ column ∈ T.columns, ∃ text, column.1 = .text text

namespace Market

theorem nodup_assets (m : Market α) : (m.assets.map (·.2)).Nodup := by
  have hsymbols : (m.assets.map (·.2)).map Asset.symbol = m.labels.map (·.1) := by
    simp [assets, Function.comp_def]
  exact List.Nodup.of_map _ (hsymbols ▸ Entries.nodup_ofList _)

variable {m : Market α} {asset : Asset} {symbol : String} {label : Scalar}

/-- The label a symbol leads to has the symbol as its text and heads a price column. -/
theorem label_of_lookup (h : m.labels.lookup symbol = some label) :
    label.asText = symbol ∧ label ∈ m.prices.columns.map (·.1) := by
  have hmem := Entries.ofList_subset _ (Entries.mem_of_lookup h)
  obtain ⟨column, hcolumn, heq⟩ := List.mem_map.mp hmem
  obtain ⟨rfl, rfl⟩ := Prod.mk.inj heq
  exact ⟨rfl, List.mem_map_of_mem hcolumn⟩

/-- The label of a symbol has a column. -/
theorem exists_cells_of_lookup (h : m.labels.lookup symbol = some label) :
    ∃ cells, m.prices.cells? label = some cells := by
  obtain ⟨column, hcolumn, rfl⟩ := List.mem_map.mp (label_of_lookup h).2
  refine Option.isSome_iff_exists.mp ?_
  rw [Table.cells?, Entries.isSome_find?, List.any_eq_true]
  exact ⟨column.1, List.mem_map_of_mem hcolumn, Scalar.same_self _⟩

/-- Where the labels are texts, a symbol leads to itself. -/
theorem label_eq_text (htexts : m.prices.HasTextLabels)
    (h : m.labels.lookup symbol = some label) : label = .text symbol := by
  obtain ⟨rfl, hmem⟩ := label_of_lookup h
  obtain ⟨column, hcolumn, rfl⟩ := List.mem_map.mp hmem
  obtain ⟨text, htext⟩ := htexts column hcolumn
  rw [htext]
  rfl

/-- Every asset of the market has a label. -/
theorem exists_label (h : asset ∈ m.assets.map (·.2)) :
    ∃ label, m.labels.lookup asset.symbol = some label := by
  simp only [assets, List.map_map, List.mem_map] at h
  obtain ⟨⟨symbol, label⟩, hmem, rfl⟩ := h
  exact ⟨label, Entries.lookup_of_mem (Entries.nodup_ofList _) hmem⟩

/-- The prices of an asset of the universe are in the column of its symbol. -/
theorem exists_cells (htexts : m.prices.HasTextLabels) (h : asset ∈ m.assets.map (·.2)) :
    ∃ cells, m.prices.cells? (.text asset.symbol) = some cells := by
  obtain ⟨label, hlabel⟩ := exists_label h
  exact label_eq_text htexts hlabel ▸ exists_cells_of_lookup hlabel

end Market

end ScorePortfolio
