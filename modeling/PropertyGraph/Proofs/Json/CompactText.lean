/-
  PropertyGraph.Proofs.Json.CompactText

  The compact text of a value, in which nothing stands between the tokens.  It is scanned as the
  same tokens as the text over several lines, so it is read as the same tree, also by a reader that
  does not look at what follows the value.
-/
import PropertyGraph.Proofs.Json.Nesting

namespace PropertyGraph.Json

/-! ## Tokens -/

mutual

/-- A value in compact text is scanned as its tokens. -/
theorem scan_chars (v : Json) (h : v.Proper Number.Legible) {rest : List Char}
    (hrest : Delimited rest) :
    scan .between (v.chars ++ rest) = valueTokens v ++ scan .between rest := by
  match v, h with
  | .null, _ => rfl
  | .bool true, _ => rfl
  | .bool false, _ => rfl
  | .number n, h => exact scan_number h hrest
  | .string s, _ => exact scan_string s rest
  | .array items, h =>
    have hopen : ∀ tail, scan .between ('[' :: tail) = .openArray :: scan .between tail :=
      fun _ => rfl
    have hclose : scan .between (']' :: rest) = .closeArray :: scan .between rest := rfl
    simp only [chars, List.cons_append, List.append_assoc, List.nil_append]
    rw [hopen, scan_itemsChars items h (.closeArray _), hclose]
    simp [valueTokens]
  | .object entries, h =>
    have hopen : ∀ tail, scan .between ('\x7b' :: tail) = .openObject :: scan .between tail :=
      fun _ => rfl
    have hclose : scan .between ('\x7d' :: rest) = .closeObject :: scan .between rest := rfl
    simp only [chars, List.cons_append, List.append_assoc, List.nil_append]
    rw [hopen, scan_entriesChars entries h.2 (.closeObject _), hclose]
    simp [valueTokens]

/-- Items in compact text are scanned as their tokens. -/
theorem scan_itemsChars (items : List Json) (h : ProperItems Number.Legible items)
    {rest : List Char} (hrest : Delimited rest) :
    scan .between (itemsChars items ++ rest) = itemTokens items ++ scan .between rest := by
  match items, h with
  | [], _ => rfl
  | [v], h => exact scan_chars v h.1 hrest
  | v :: w :: more, h =>
    have hcomma : ∀ tail, scan .between (',' :: tail) = .comma :: scan .between tail :=
      fun _ => rfl
    simp only [itemsChars, List.cons_append, List.append_assoc]
    rw [scan_chars v h.1 (.comma _), hcomma, scan_itemsChars (w :: more) h.2 hrest]
    simp [itemTokens]

/-- Entries in compact text are scanned as their tokens. -/
theorem scan_entriesChars (entries : List (String × Json))
    (h : ProperEntries Number.Legible entries) {rest : List Char} (hrest : Delimited rest) :
    scan .between (entriesChars entries ++ rest) = entryTokens entries ++ scan .between rest := by
  have hcolon : ∀ tail, scan .between (':' :: tail) = .colon :: scan .between tail :=
    fun _ => rfl
  match entries, h with
  | [], _ => rfl
  | [(k, v)], h =>
    simp only [entriesChars, List.cons_append, List.append_assoc]
    rw [scan_string, hcolon, scan_chars v h.1 hrest]
    simp [entryTokens]
  | (k, v) :: e :: more, h =>
    have hcomma : ∀ tail, scan .between (',' :: tail) = .comma :: scan .between tail :=
      fun _ => rfl
    simp only [entriesChars, List.cons_append, List.append_assoc]
    rw [scan_string, hcolon, scan_chars v h.1 (.comma _), hcomma,
      scan_entriesChars (e :: more) h.2 hrest]
    simp [entryTokens]

end

/-- The tokens of a value in compact text. -/
theorem tokens_text {v : Json} (h : v.Proper Number.Legible) : tokens v.text = valueTokens v := by
  have hscan := scan_chars v h .nil
  rw [List.append_nil] at hscan
  rw [tokens, text, String.toList_ofList, hscan]
  simp [scan, atEnd]

/-! ## Trees -/

namespace Tree

/-- The tree of a value in compact text. -/
theorem ofText_text {v : Json} (h : v.Proper Number.Legible) : ofText v.text = printedTree 0 v :=
  ofText_of_tokens (tokens_text h)

/-- The tree of a value in compact text, whatever may follow the value. -/
theorem ofTextStart_text {v : Json} (h : v.Proper Number.Legible) :
    ofTextStart v.text = printedTree 0 v := by
  have hread := read_valueTokens v [] []
  rw [List.append_nil] at hread
  rw [ofTextStart, tokens_text h, hread]
  rfl

end Tree

/-- A value in compact text is read back, if it nests no deeper than the reader takes. -/
theorem toJson_ofText_text {v : Json} (h : v.Proper Number.Whole) (hlimit : v.nesting ≤ maxDepth) :
    (Tree.ofText v.text).toJson = .ok v := by
  have hlegible : v.Proper Number.Legible := Proper.mono Number.stable_whole.legible v h
  rw [Tree.ofText_text hlegible, Tree.toJson_printedTree, Proper.reread v h]
  exact (Tree.withinLimit_printedTree_iff (by decide) v).2 (by omega)

end PropertyGraph.Json
