import Excise.Proofs.Flow.Idempotence
import Excise.Transform

/-!
# Code without the module

The sites of the target module are the only origin of taint and of entries of the plan. A program
that has none comes back as it is, whatever its other modules and names (`transform_untouched`), and
so does one with syntax errors. In `parameterLoader` the call `require("debug")` is one of a
parameter.
-/

namespace Excise

open Excise.Tree

/-- A tree has no site if no node is an import of the module or a call that loads it. -/
theorem Tree.sites_eq_nil {t : Tree} {target : String}
    (h : ∀ n, ¬ t.IsTargetImport target n ∧ ¬ t.IsTargetRequire target n) :
    t.sites t.resolution target = [] := by
  refine List.eq_nil_iff_forall_not_mem.mpr fun site hsite => ?_
  cases site with
  | imported n => exact (h n).1 (imported_mem_sites.mp hsite)
  | required n => exact (h n).2 (required_mem_sites.mp hsite)

/-- An analysis that tainted and planned nothing leaves the code as it is. -/
theorem Transformed.of_analysis_untouched {t : Tree} {code : String} {a : Analysis}
    (htainted : a.tainted = []) (hplan : a.plan.IsEmpty) :
    Transformed.ofAnalysis t code a =
      ⟨code, false, 0, a.passes, .zero, none, a.log.map AnalysisEvent.message⟩ := by
  rw [ofAnalysis, if_pos hplan, htainted]
  rfl

/-- A source whose tree has neither an import of the target nor a call of the global `require` with
its name, or which has syntax errors, comes back unchanged: nothing is tainted or removed, and only
errors are a reason to leave it alone. -/
theorem transform_untouched (grammar : Grammar) (target : Target) (language : Language)
    (code : String)
    (h : (grammar language (Bytes.ofText code)).hasErrors = true ∨
      ∀ n, ¬ (grammar language (Bytes.ofText code)).tree.IsTargetImport target.name n ∧
        ¬ (grammar language (Bytes.ofText code)).tree.IsTargetRequire target.name n) :
    let result := transform grammar target language code
    result.code = code ∧ result.changed = false ∧ result.tainted = 0 ∧ result.tally = .zero ∧
      (result.skipped = some .syntaxErrors ↔
        (grammar language (Bytes.ofText code)).hasErrors = true) := by
  intro result
  have hresult : result = transformParsed target code (grammar language (Bytes.ofText code)) := rfl
  cases herrors : (grammar language (Bytes.ofText code)).hasErrors with
  | true =>
      rw [transformParsed, if_pos herrors] at hresult
      simp [hresult, Transformed.skip]
  | false =>
      have hsites := sites_eq_nil (h.resolve_left (by simp [herrors]))
      obtain ⟨htainted, hplan⟩ := run_of_no_sites hsites
      rw [transformParsed, if_neg (by simp [herrors]),
        Transformed.of_analysis_untouched htainted hplan] at hresult
      simp [hresult]

/-- The program `function debug(require){return require("debug");}debug();import x from"other";`. -/
def parameterLoader : Tree :=
  (Tree.ofRows? (Bytes.ofText
      "function debug(require)\x7breturn require(\"debug\");\x7ddebug();import x from\"other\";")
    #[⟨0, true, "program", 0, 78, none⟩,
      ⟨1, true, "function_declaration", 0, 49, none⟩,
      ⟨2, true, "identifier", 9, 14, some "name"⟩,
      ⟨2, true, "formal_parameters", 14, 23, some "parameters"⟩,
      ⟨3, true, "identifier", 15, 22, none⟩,
      ⟨2, true, "statement_block", 23, 49, some "body"⟩,
      ⟨3, true, "return_statement", 24, 48, none⟩,
      ⟨4, true, "call_expression", 31, 47, none⟩,
      ⟨5, true, "identifier", 31, 38, some "function"⟩,
      ⟨5, true, "arguments", 38, 47, some "arguments"⟩,
      ⟨6, true, "string", 39, 46, none⟩,
      ⟨7, true, "string_fragment", 40, 45, none⟩,
      ⟨1, true, "expression_statement", 49, 57, none⟩,
      ⟨2, true, "call_expression", 49, 56, none⟩,
      ⟨3, true, "identifier", 49, 54, some "function"⟩,
      ⟨3, true, "arguments", 54, 56, some "arguments"⟩,
      ⟨1, true, "import_statement", 57, 78, none⟩,
      ⟨2, true, "import_clause", 64, 65, none⟩,
      ⟨3, true, "identifier", 64, 65, none⟩,
      ⟨2, true, "string", 70, 77, some "source"⟩,
      ⟨3, true, "string_fragment", 71, 76, none⟩]).get (by decide +kernel)

/-- It loads another module, and its own `require` and `debug` are variables: it is not changed. -/
theorem parameter_loader_untouched :
    (∀ n, ¬ parameterLoader.IsTargetImport "debug" n ∧
        ¬ parameterLoader.IsTargetRequire "debug" n) ∧
      (transform (fun _ _ => ⟨parameterLoader, false⟩) ⟨"debug", by decide +kernel⟩ .javascript
        (Bytes.text parameterLoader.source)).code = Bytes.text parameterLoader.source := by
  have himports : ∀ n ∈ parameterLoader.nodes, ¬ (parameterLoader.kind n = "import_statement" ∧
      parameterLoader.ImportsModule "debug" n) := by
    decide +kernel
  have hrequires : ∀ n ∈ parameterLoader.nodes, ¬ (parameterLoader.kind n = "call_expression" ∧
      parameterLoader.RequiresModule parameterLoader.resolution "debug" n) := by
    decide +kernel
  have hnone : ∀ n, ¬ parameterLoader.IsTargetImport "debug" n ∧
      ¬ parameterLoader.IsTargetRequire "debug" n :=
    fun n => ⟨fun h => himports n h.1 h.2, fun h => hrequires n h.1 h.2⟩
  exact ⟨hnone, (transform_untouched (fun _ _ => ⟨parameterLoader, false⟩)
    ⟨"debug", by decide +kernel⟩ .javascript (Bytes.text parameterLoader.source) (.inr hnone)).1⟩

end Excise
