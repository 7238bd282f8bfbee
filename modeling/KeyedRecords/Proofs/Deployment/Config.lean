import KeyedRecords.Deployment.Config
import KeyedRecords.Proofs.Lists

/-! Which names a table can be configured with. Each names one index, in the order in which the names come first.
Main statement: `TableConfig.ofNames_eq_ok_iff`. -/

namespace KeyedRecords.Deployment

def IndexConfig.names (indexes : List IndexConfig) : List String := indexes.map (·.name)

theorem IndexConfig.names_map_mk (names : List String) : IndexConfig.names (names.map mk) = names := by
  simp [IndexConfig.names, Function.comp_def]

theorem IndexConfig.any_name_iff {indexes : List IndexConfig} {name : String} :
    indexes.any (·.name = name) = true ↔ name ∈ names indexes := by
  simp [names]

namespace TableConfig

variable {names : List String}

theorem addIndexes_eq_ok_iff {indexes added : List IndexConfig} :
    addIndexes indexes names = .ok added ↔
      (∀ name ∈ names, name ∉ IndexConfig.names indexes → isIndexName name = true) ∧
        added = indexes ++ (names.filter (· ∉ IndexConfig.names indexes)).eraseDups.map IndexConfig.mk := by
  induction names generalizing indexes with
  | nil =>
    rw [addIndexes, pure_eq_ok]
    simp
  | cons name rest ih =>
    rw [addIndexes]
    by_cases hmem : name ∈ IndexConfig.names indexes
    · rw [if_pos (IndexConfig.any_name_iff.2 hmem), ih, List.filter_cons_of_neg (by simpa using hmem),
        List.forall_mem_cons]
      exact and_congr_left fun _ => ⟨fun h => ⟨fun hnew => absurd hmem hnew, h⟩, And.right⟩
    · rw [if_neg (mt IndexConfig.any_name_iff.1 hmem), List.filter_cons_of_pos (by simpa using hmem),
        List.eraseDups_cons, List.filter_filter]
      split
      · rename_i hname
        have hnew : ∀ other, other ∉ IndexConfig.names (indexes ++ [⟨name⟩]) ↔
            other ≠ name ∧ other ∉ IndexConfig.names indexes := by
          simp [IndexConfig.names, and_comm]
        have hfilter : rest.filter (fun other => !other == name && decide (other ∉ IndexConfig.names indexes)) =
            rest.filter (· ∉ IndexConfig.names (indexes ++ [⟨name⟩])) := by
          refine List.filter_congr fun other _ => ?_
          rw [Bool.eq_iff_iff]
          simp [hnew]
        rw [ih, hfilter, List.append_assoc]
        refine and_congr_left fun _ => ⟨fun h other hother hfresh => ?_, fun h other hother hfresh => ?_⟩
        · by_cases heq : other = name
          · exact heq ▸ hname
          · exact h other (List.mem_of_ne_of_mem heq hother) ((hnew other).2 ⟨heq, hfresh⟩)
        · exact h other (List.mem_cons_of_mem _ hother) ((hnew other).1 hfresh).2
      · rename_i hname
        exact iff_of_false nofun fun h => hname (h.1 name List.mem_cons_self hmem)

/-- A configuration has an index for each name, once. -/
theorem ofNames_eq_ok_iff {table : String} {config : TableConfig} :
    ofNames table names = .ok config ↔
      (∀ name ∈ names, isIndexName name = true) ∧ config = ⟨table, names.eraseDups.map IndexConfig.mk⟩ := by
  rw [ofNames, bind_eq_ok]
  simp [addIndexes_eq_ok_iff, pure_eq_ok, IndexConfig.names]

end TableConfig

end KeyedRecords.Deployment
