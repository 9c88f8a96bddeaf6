import TraversalSql.Proofs.IdLiterals

/-!
# Record ids and their text

The text of a record holds two separators, a dot behind the schema and a colon in front of the id,
and its reader looks for the first dot and the last colon. A label may therefore hold both, and a
schema may hold colons. Only a dot in the schema moves a cut: then the reader finds another record.
What is read without a schema, or with more digits than needed, is printed with the schema and
without them; this is the one text of the record that is read back.
-/

set_option autoImplicit false

namespace TraversalSql.RecordId

variable {s : String} {kind : ElementKind} {r : RecordId}

/-- A record that is spelled somehow has a schema without a dot, and a label. -/
theorem Spells.names (h : Spells s r) :
    r.table.schema ≠ "" ∧ '.' ∉ r.table.schema.toList ∧ r.table.label ≠ "" := by
  cases h with
  | qualified hschema hdot hlabel _ => exact ⟨hschema, hdot, hlabel⟩
  | bare hlabel _ _ =>
    have hdefault : Table.defaultSchema ≠ "" ∧ '.' ∉ Table.defaultSchema.toList := by decide
    exact ⟨hdefault.1, hdefault.2, hlabel⟩

/-- The text of a record spells it if any text could. -/
theorem spells_text_iff : Spells r.text r ↔
    r.table.schema ≠ "" ∧ '.' ∉ r.table.schema.toList ∧ r.table.label ≠ "" := by
  refine ⟨Spells.names, ?_⟩
  rintro ⟨hschema, hdot, hlabel⟩
  exact .qualified hschema hdot hlabel (integer?_intText r.id)

/-- **Record ids survive printing.** The text of a record is read as that record exactly if its
schema is not empty and without a dot and its label is not empty. Every record that was read from a
text is one of these. -/
theorem text_read_back :
    (∀ r : RecordId, parse? r.text r.table.kind = some r ↔
      r.table.schema ≠ "" ∧ '.' ∉ r.table.schema.toList ∧ r.table.label ≠ "") ∧
    ∀ (s : String) (kind : ElementKind) (r : RecordId),
      parse? s kind = some r → parse? r.text kind = some r := by
  have hself (r : RecordId) : parse? r.text r.table.kind = some r ↔
      r.table.schema ≠ "" ∧ '.' ∉ r.table.schema.toList ∧ r.table.label ≠ "" := by
    rw [parse?_eq_some_iff, and_iff_left rfl, spells_text_iff]
  refine ⟨hself, fun s kind r h => ?_⟩
  obtain ⟨hspells, rfl⟩ := parse?_eq_some_iff.mp h
  exact (hself r).mpr hspells.names

/-- A record with separators in its schema and in its label. -/
def entangled : RecordId := ⟨⟨"a:b", "c.d:e", .edge⟩, -7⟩

/-- It is read back all the same, and so is one that was written in another way. -/
theorem entangled_read_back :
    entangled.text = "a:b.c.d:e:-7" ∧ parse? "a:b.c.d:e:-7" .edge = some entangled ∧
    parse? "knows:+03" .edge = some ⟨⟨"public", "knows", .edge⟩, 3⟩ ∧
    parse? "public.knows:3" .edge = some ⟨⟨"public", "knows", .edge⟩, 3⟩ := by
  have htext : entangled.text = "a:b.c.d:e:-7" := by decide
  have hknows : parse? "knows:+03" .edge = some ⟨⟨"public", "knows", .edge⟩, 3⟩ := by decide
  refine ⟨htext, ?_, hknows, ?_⟩
  · rw [← htext]
    exact (text_read_back.1 entangled).mpr (by decide)
  · exact text_read_back.2 "knows:+03" .edge _ hknows

end TraversalSql.RecordId
