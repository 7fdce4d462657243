/-
  PropertyGraph.Proofs.Storage.Naming

  The names of all documents of a graph end in the same extension; what stands before it is
  the stem.  Different documents have different stems, and neither a document nor the file
  written beside it has the name of the directory of raw texts or of a raw text.
-/
import PropertyGraph.Proofs.Storage.FilePath
import PropertyGraph.Storage.Naming

namespace PropertyGraph.Naming

open FilePath (PlainName)

/-! ## Stems -/

/-- The stem of the document of a type. -/
def documentStem (type : String) (c : EntityClass) : String := type ++ "." ++ c.name

/-- The stem of the index. -/
def indexStem (c : EntityClass) : String := c.name ++ ".id2type"

/-- The stem of the list of types. -/
def typeListStem (c : EntityClass) : String := c.name ++ ".types"

/-- The path of the document of a stem. -/
def jsonPath (root stem : String) : String := FilePath.join root (stem ++ ".json")

theorem documentPath_eq (root type : String) (c : EntityClass) :
    documentPath root type c = jsonPath root (documentStem type c) := rfl

theorem indexPath_eq (root : String) (c : EntityClass) :
    indexPath root c = jsonPath root (indexStem c) := by
  rw [indexPath, jsonPath, indexStem, String.append_assoc]
  rfl

theorem typeListPath_eq (root : String) (c : EntityClass) :
    typeListPath root c = jsonPath root (typeListStem c) := by
  rw [typeListPath, jsonPath, typeListStem, String.append_assoc]
  rfl

/-- A stem from which names of files can be made. -/
structure PlainStem (stem : String) : Prop where
  no_slash : '/' ∉ stem.toList
  ne_empty : stem ≠ ""
  ne_point : stem ≠ "."

/-- A stem with an extension is a plain name. -/
theorem PlainStem.name {stem : String} (h : PlainStem stem) {extension : String}
    (hslash : '/' ∉ extension.toList) (hlong : 3 ≤ extension.length) :
    PlainName (stem ++ extension) :=
  FilePath.plainName_append h.no_slash hslash hlong

theorem PlainStem.json {stem : String} (h : PlainStem stem) : PlainName (stem ++ ".json") :=
  h.name (by decide) (by decide)

theorem PlainStem.aside {stem : String} (h : PlainStem stem) : PlainName (stem ++ ".json.tmp") :=
  h.name (by decide) (by decide)

/-- A type that is accepted has neither a slash nor a null character. -/
theorem ne_of_checkType {type : String} (h : checkType type = .ok ()) {ch : Char}
    (hmem : ch ∈ type.toList) : ch ≠ '/' ∧ ch ≠ '\x00' := by
  have hname : isTypeName type = true := by
    rw [checkType] at h
    split at h
    · assumption
    · cases h
  have hall := List.all_eq_true.1 (Bool.and_eq_true_iff.1 hname).2 ch hmem
  simp only [Bool.and_eq_true, bne_iff_ne] at hall
  exact ⟨hall.1.1, hall.2⟩

theorem no_slash_of_checkType {type : String} (h : checkType type = .ok ()) :
    '/' ∉ type.toList :=
  fun hmem => (ne_of_checkType h hmem).1 rfl

theorem no_null_of_checkType {type : String} (h : checkType type = .ok ()) :
    '\x00' ∉ type.toList :=
  fun hmem => (ne_of_checkType h hmem).2 rfl

theorem plainStem_of_long {stem : String} (hslash : '/' ∉ stem.toList) (hlong : 2 ≤ stem.length) :
    PlainStem stem where
  no_slash := hslash
  ne_empty := by rintro rfl; exact absurd hlong (by decide)
  ne_point := by rintro rfl; exact absurd hlong (by decide)

theorem plainStem_document {type : String} (c : EntityClass) (h : checkType type = .ok ()) :
    PlainStem (documentStem type c) := by
  have hslash := no_slash_of_checkType h
  cases c <;>
    refine plainStem_of_long ?_ ?_
  · simp [documentStem, EntityClass.name, String.toList_append, hslash]
  · have hname : 2 ≤ "node".length := by decide
    simp only [documentStem, EntityClass.name, String.length_append]
    omega
  · simp [documentStem, EntityClass.name, String.toList_append, hslash]
  · have hname : 2 ≤ "relationship".length := by decide
    simp only [documentStem, EntityClass.name, String.length_append]
    omega

theorem plainStem_index (c : EntityClass) : PlainStem (indexStem c) := by
  cases c <;> exact plainStem_of_long (by decide) (by decide)

theorem plainStem_typeList (c : EntityClass) : PlainStem (typeListStem c) := by
  cases c <;> exact plainStem_of_long (by decide) (by decide)

/-! ## Different stems -/

/-- The last `k` signs of a text, in reverse. -/
def ending (k : Nat) (s : String) : List Char := s.toList.reverse.take k

/-- A text ends as what is put behind it. -/
theorem ending_append {k : Nat} (a : String) {s : String} (h : k ≤ s.toList.length) :
    ending k (a ++ s) = ending k s := by
  rw [ending, ending, String.toList_append, List.reverse_append,
    List.take_append_of_le_length (by simpa using h)]

theorem append_right_cancel {a b s : String} (h : a ++ s = b ++ s) : a = b := by
  have hlist := congrArg String.toList h
  rw [String.toList_append, String.toList_append] at hlist
  exact String.toList_inj.1 (List.append_inj' hlist rfl).1

theorem ending_documentStem (type : String) (c : EntityClass) :
    ending 3 (documentStem type c) = ending 3 c.name :=
  ending_append _ (by cases c <;> decide)

theorem ending_indexStem (c : EntityClass) : ending 3 (indexStem c) = ['e', 'p', 'y'] :=
  ending_append c.name (by decide)

theorem ending_typeListStem (c : EntityClass) : ending 3 (typeListStem c) = ['s', 'e', 'p'] :=
  ending_append c.name (by decide)

/-- A type and a class are told by the stem of their document. -/
theorem documentStem_inj {type type' : String} {c c' : EntityClass}
    (h : documentStem type c = documentStem type' c') : type = type' ∧ c = c' := by
  have hclass : c = c' := by
    have hending := congrArg (ending 3) h
    rw [ending_documentStem, ending_documentStem] at hending
    cases c <;> cases c' <;> first | rfl | exact absurd hending (by decide)
  subst hclass
  exact ⟨append_right_cancel (append_right_cancel h), rfl⟩

theorem documentStem_ne_indexStem (type : String) (c c' : EntityClass) :
    documentStem type c ≠ indexStem c' := by
  intro h
  have hending := congrArg (ending 3) h
  rw [ending_documentStem, ending_indexStem] at hending
  cases c <;> exact absurd hending (by decide)

theorem documentStem_ne_typeListStem (type : String) (c c' : EntityClass) :
    documentStem type c ≠ typeListStem c' := by
  intro h
  have hending := congrArg (ending 3) h
  rw [ending_documentStem, ending_typeListStem] at hending
  cases c <;> exact absurd hending (by decide)

theorem indexStem_ne_typeListStem (c c' : EntityClass) : indexStem c ≠ typeListStem c' := by
  intro h
  have hending := congrArg (ending 3) h
  rw [ending_indexStem, ending_typeListStem] at hending
  exact absurd hending (by decide)

theorem indexStem_inj {c c' : EntityClass} (h : indexStem c = indexStem c') : c = c' := by
  cases c <;> cases c' <;> first | rfl | exact absurd h (by decide)

theorem typeListStem_inj {c c' : EntityClass} (h : typeListStem c = typeListStem c') : c = c' := by
  cases c <;> cases c' <;> first | rfl | exact absurd h (by decide)

/-! ## Names of other files -/

/-- The names that a write to the document of a stem touches. -/
def Touches (stem name : String) : Prop := name = stem ++ ".json" ∨ name = stem ++ ".json.tmp"

/-- The last signs of a name that a write to a document touches. -/
theorem Touches.ending {stem name : String} (h : Touches stem name) :
    Naming.ending 3 name = ['n', 'o', 's'] ∨ Naming.ending 3 name = ['p', 'm', 't'] := by
  rcases h with rfl | rfl
  · exact .inl (ending_append stem (by decide))
  · exact .inr (ending_append stem (by decide))

theorem not_touches_json {stem stem' : String} (h : stem' ≠ stem) :
    ¬ Touches stem (stem' ++ ".json") := by
  rintro (he | he)
  · exact h (append_right_cancel he)
  · have hending := congrArg (ending 3) he
    rw [ending_append _ (by decide), ending_append _ (by decide)] at hending
    exact absurd hending (by decide)

/-- A raw text is no document and no file beside one. -/
theorem not_touches_txt (stem name : String) : ¬ Touches stem (name ++ ".txt") := by
  intro h
  have hending : ending 3 (name ++ ".txt") = ['t', 'x', 't'] := ending_append name (by decide)
  rcases h.ending with he | he <;> exact absurd (hending.symm.trans he) (by decide)

/-- The directory of raw texts is no document and no file beside one. -/
theorem not_touches_raw (stem : String) : ¬ Touches stem "raw" := by
  intro h
  rcases h.ending with he | he <;> exact absurd he (by decide)

/-! ## Names of raw texts -/

/-- The last name of the path of the raw text of an identity. -/
def rawLast (id : String) : String := String.ofList (FilePath.lastPart id.toList) ++ ".txt"

/-- The names that work on the raw text of an identity touches. -/
def RawTouches (id name : String) : Prop := name = "raw" ∨ name = rawLast id

theorem ofList_lastPart_rawName (id : String) :
    String.ofList (FilePath.lastPart (rawName id).toList) = rawLast id := by
  rw [rawName, String.toList_append, FilePath.lastPart_append (by decide), String.ofList_append,
    String.ofList_toList]
  rfl

theorem plainName_rawLast (id : String) : PlainName (rawLast id) := by
  refine FilePath.plainName_append ?_ (by decide) (by decide)
  rw [String.toList_ofList]
  exact FilePath.not_mem_lastPart _

/-- Identities that differ behind a common text have raw texts of different names. -/
theorem rawLast_inj {before first second : String} (hfirst : '/' ∉ first.toList)
    (hsecond : '/' ∉ second.toList) (h : rawLast (before ++ first) = rawLast (before ++ second)) :
    first = second := by
  have hlast := append_right_cancel h
  rw [String.toList_append, String.toList_append, FilePath.lastPart_append hfirst,
    FilePath.lastPart_append hsecond] at hlast
  have hlists := congrArg String.toList hlast
  rw [String.toList_ofList, String.toList_ofList] at hlists
  exact String.toList_inj.1 (List.append_cancel_left hlists)

/-- Work on a raw text touches no document. -/
theorem not_rawTouches {stem name : String} (h : Touches stem name) (id : String) :
    ¬ RawTouches id name := by
  rintro (rfl | rfl)
  · exact not_touches_raw stem h
  · exact not_touches_txt stem _ h

/-- Work on a raw text does not touch those of other names. -/
theorem not_rawTouches_rawLast {id other : String} (h : rawLast other ≠ rawLast id) :
    ¬ RawTouches id (rawLast other) := by
  rintro (he | he)
  · have hending : ending 3 (rawLast other) = ['t', 'x', 't'] := ending_append _ (by decide)
    rw [he] at hending
    exact absurd hending (by decide)
  · exact h he

end PropertyGraph.Naming
