/-
  PropertyGraph.Proofs.Searcher.PropertyEquality

  The leaf that asks for a value at a path.  It compares texts, and answers as if it compared
  values: it matches exactly when the path leads to a value and that value is the given one, the
  order of entries and the sign of a zero included.  Where the path leads to nothing it matches no value, null included.
-/
import PropertyGraph.Proofs.Json.TextIdentity
import PropertyGraph.Proofs.Searcher.CompiledMeaning

namespace PropertyGraph

/-! ## What a path leads to -/

namespace PropertyPath

variable {p : Number → Prop}

theorem proper_selectStep {step : PathStep} {v w : Json} (hv : v.Proper p)
    (h : selectStep step v = some w) : w.Proper p := by
  cases step with
  | field name =>
    cases v with
    | object entries => exact Json.properEntries_iff.1 hv.2 _ (Entries.mem_of_get? h)
    | _ => cases h
  | index place =>
    cases v with
    | array items => exact Json.properItems_iff.1 hv w (List.mem_of_getElem? h)
    | _ => cases h

theorem proper_follow {steps : List PathStep} {v w : Json} (hv : v.Proper p)
    (h : follow steps v = some w) : w.Proper p := by
  induction steps generalizing v with
  | nil => exact Option.some.inj h ▸ hv
  | cons step steps ih =>
    obtain ⟨next, hnext, hrest⟩ := Option.bind_eq_some_iff.1 h
    exact ih (proper_selectStep hv hnext) hrest

/-- What a path leads to in a bag of proper values is proper. -/
theorem proper_select {path : PropertyPath} {bag : Bag} (hbag : (Json.object bag).Proper p)
    {w : Json} (h : path.select bag = some w) : w.Proper p := by
  rw [select] at h
  split at h
  · cases h
  · exact proper_follow hbag h

end PropertyPath

/-! ## The comparison -/

namespace Searcher

open Json (canonical)

/-- A leaf whose path can be read compares two texts. -/
theorem test_propertyEq {c : EntityClass} (evaluator : Evaluator c) {path : String}
    {p : PropertyPath} (hpath : PropertyPath.read path = .ok p) (v : Json) (e : Entity c) :
    (Searcher.propertyEq path v).test evaluator e
      = .ok (canonical (p.select e.properties) == canonical (some v)) := by
  have hcheck : (Searcher.propertyEq path v).checkPaths = .ok () :=
    (checkPaths_ok_iff _).2 fun q hq => ⟨p, List.mem_singleton.1 hq ▸ hpath⟩
  rw [test_eq_holds evaluator hcheck, holds, hpath]

/-- The two texts are the same exactly when the path leads to the given value. -/
theorem canonical_select_iff {p : PropertyPath} {bag : Bag} {v : Json}
    (hbag : (Json.object bag).Proper Number.Normalized) (hv : v.Proper Number.Normalized) :
    canonical (p.select bag) = canonical (some v) ↔ p.select bag = some v :=
  Json.canonical_eq_canonical_iff hv fun _ => PropertyPath.proper_select hbag

/-- Texts identify values: those of two values are the same only if the values are, numbers of
    floating point included, and the text of an absent value is that of none.  So a leaf whose path
    can be read never fails, matches exactly when the path leads to the given value, and matches
    nothing where the path leads nowhere. -/
theorem propertyEq_compares_values :
    (∀ v w : Json, v.Proper Number.Normalized → w.Proper Number.Normalized →
      (canonical (some v) = canonical (some w) ↔ v = w))
    ∧ (∀ v : Json, v.Proper Number.Normalized → canonical none ≠ canonical (some v))
    ∧ ∀ (c : EntityClass) (evaluator : Evaluator c) (path : String) (p : PropertyPath) (v : Json)
        (e : Entity c), PropertyPath.read path = .ok p → v.Proper Number.Normalized →
      (Json.object e.properties).Proper Number.Normalized →
      (∃ hit, (Searcher.propertyEq path v).test evaluator e = .ok hit
        ∧ (hit = true ↔ p.select e.properties = some v))
      ∧ (p.select e.properties = none →
        (Searcher.propertyEq path v).test evaluator e = .ok false) := by
  have habsent : ∀ v : Json, v.Proper Number.Normalized → canonical none ≠ canonical (some v) :=
    fun v hv => Json.absentText_ne_text (Json.Proper.mono (fun _ => Number.Normalized.inRange) v hv)
  refine ⟨fun v w hv hw => Json.text_eq_text_iff hv hw, habsent, ?_⟩
  intro c evaluator path p v e hpath hv hbag
  have htest := test_propertyEq evaluator hpath v e
  refine ⟨⟨_, htest, ?_⟩, fun hnone => ?_⟩
  · rw [beq_iff_eq]
    exact canonical_select_iff hbag hv
  · rw [htest, hnone, beq_eq_false_iff_ne.2 (habsent v hv)]

/-- One and a half. -/
def threeHalves : Json := .number (.float ⟨false, 6755399441055744, -52⟩)

/-- A node with a list of a number and a null. -/
def listedHalves : Node :=
  ⟨.ofString "1", "Doc", [("a", .object [("b", .array [threeHalves, .null])])], (), some 10⟩

/-- The number in the list is found, and no null is found where the path leads nowhere. -/
theorem propertyEq_compares_values_listed :
    (∃ hit, (Searcher.propertyEq "$.a['b'][0]" threeHalves).test .builtin listedHalves = .ok hit
      ∧ (hit = true ↔ PropertyPath.select ⟨[.field "a", .field "b", .index 0]⟩
          listedHalves.properties = some threeHalves))
    ∧ (Searcher.propertyEq "$.a.c" .null).test .builtin listedHalves = .ok false
    ∧ (canonical (some threeHalves) = canonical (some (.string "1.5"))
      ↔ threeHalves = Json.string "1.5") := by
  have hnumber : threeHalves.Proper Number.Normalized :=
    ⟨⟨by decide, by decide⟩, by decide, .inl (by decide)⟩
  have hbag : (Json.object listedHalves.properties).Proper Number.Normalized := by
    simp [listedHalves, Json.Proper, Json.ProperEntries, Json.ProperItems, Entries.keys, hnumber]
  obtain ⟨hvalues, -, hleaf⟩ := propertyEq_compares_values
  refine ⟨?_, ?_, hvalues _ _ hnumber trivial⟩
  · exact (hleaf .node .builtin "$.a['b'][0]" ⟨[.field "a", .field "b", .index 0]⟩ threeHalves
      listedHalves (by cbv) hnumber hbag).1
  · exact (hleaf .node .builtin "$.a.c" ⟨[.field "a", .field "c"]⟩ .null listedHalves (by cbv)
      trivial hbag).2 rfl

end Searcher

end PropertyGraph
